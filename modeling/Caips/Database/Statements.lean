/-
Caips.Database.Statements — the statements of a script, after
`split_statements` of `database/migrations.py`.

`splitFrom` is the loop of the source: quotes, `$$` bodies and line comments,
but no block comments. `next` is one step of a reader that can be told of block
comments or not; it says of each character whether it is kept, dropped with a
line comment, or ends a statement. Without them it is the loop
(`cut_eq_splitFrom`); with them it reads a script as its grammar has it
(`cut_scriptText`). The two readers agree on a script exactly when they agree on
every character of it (`filter_cut_eq_iff`): where they part, the buffer holds
the slash of a block comment, so what comes next is not trimmed away.
-/
import Caips.Coreai.Keystore
import Caips.Logic.Text

namespace Caips.Database

open Caips.Logic
open Caips.Coreai.Keystore (isSpace)

/-! ## The code -/

/-- Where the loop is: the open quote, or on its way to the end of a line. -/
inductive Mode where
  | plain
  | single
  | double
  | dollar
  | comment
  deriving DecidableEq, Repr

/-- `s.strip()`. -/
def strip (s : List Char) : List Char := Text.trim isSpace s

/-- The loop of `split_statements`, with its buffer. -/
def splitFrom : Mode → List Char → List Char → List (List Char)
  | _, buf, [] => [strip buf]
  | .comment, buf, c :: l => if c = '\n' then splitFrom .plain (buf ++ [c]) l else splitFrom .comment buf l
  | .single, buf, c :: l => splitFrom (if c = '\'' then .plain else .single) (buf ++ [c]) l
  | .double, buf, c :: l => splitFrom (if c = '"' then .plain else .double) (buf ++ [c]) l
  | .dollar, buf, '$' :: '$' :: l => splitFrom .plain (buf ++ ['$', '$']) l
  | .dollar, buf, c :: l => splitFrom .dollar (buf ++ [c]) l
  | .plain, buf, '-' :: '-' :: l => splitFrom .comment buf l
  | .plain, buf, '$' :: '$' :: l => splitFrom .dollar (buf ++ ['$', '$']) l
  | .plain, buf, c :: l =>
    if c = ';' then strip buf :: splitFrom .plain [] l
    else splitFrom (if c = '\'' then .single else if c = '"' then .double else .plain) (buf ++ [c]) l

/-- `str.upper` of a character, as far as the letters of ASCII go. -/
def foldUpper (c : Char) : Char := if c = 'ı' then 'I' else if c = 'ſ' then 'S' else c.toUpper

/-- `s and s.upper() not in ("BEGIN", "COMMIT")`. -/
def isKept (s : List Char) : Bool := s ≠ [] && s.map foldUpper ∉ ["BEGIN".toList, "COMMIT".toList]

/-- `split_statements`. -/
def splitStatements (sql : List Char) : List (List Char) := (splitFrom .plain [] sql).filter isKept

/-! ## Scripts -/

/-- A part of a statement, by what is between its marks. -/
inductive Token where
  | plain (c : Char)
  | single (body : List Char)
  | double (body : List Char)
  | dollar (body : List Char)
  | line (body : List Char)
  | block (body : List Char)
  deriving DecidableEq, Repr

def Token.text : Token → List Char
  | .plain c => [c]
  | .single body => '\'' :: (body ++ ['\''])
  | .double body => '"' :: (body ++ ['"'])
  | .dollar body => '$' :: '$' :: (body ++ ['$', '$'])
  | .line body => '-' :: '-' :: body
  | .block body => '/' :: '*' :: (body ++ ['*', '/'])

def Token.isLine : Token → Bool
  | .line _ => true
  | _ => false

/-- Every quote in the body is doubled. -/
def doubled (q : Char) : List Char → Bool
  | [] => true
  | [c] => c ≠ q
  | c :: d :: l => if c = q then d = q && doubled q l else doubled q (d :: l)

/-- In front of that text the part is read as itself: a character begins no quote and no comment and ends
no statement, and the first mark after a beginning that could end it does. -/
def Token.Fits : Token → List Char → Prop
  | .plain c, rest => c ∉ [';', '\'', '"'] ∧ (c ∈ ['-', '$'] → rest.head? ≠ some c) ∧
      (c = '/' → rest.head? ≠ some '*')
  | .single body, _ => doubled '\'' body = true
  | .double body, _ => doubled '"' body = true
  | .dollar body, _ => ¬ ['$', '$'] <:+: body ++ ['$']
  | .line body, rest => '\n' ∉ body ∧ ∀ c ∈ rest.head?, c = '\n'
  | .block body, _ => ¬ ['*', '/'] <:+: body

abbrev Statement : Type := List Token

def tokensText (s : Statement) : List Char := s.flatMap Token.text

/-- The statement without its line comments. -/
def visible (s : Statement) : List Char := tokensText (s.filter (!·.isLine))

def scriptText : List Statement → List Char
  | [] => []
  | [s] => tokensText s
  | s :: rest => tokensText s ++ ';' :: scriptText rest

def TokensFit : Statement → List Char → Prop
  | [], _ => True
  | t :: s, rest => t.Fits (tokensText s ++ rest) ∧ TokensFit s rest

/-- The parts of the statements fit where they stand. -/
def ScriptFits : List Statement → Prop
  | [] => True
  | [s] => TokensFit s []
  | s :: rest => TokensFit s (';' :: scriptText rest) ∧ ScriptFits rest

/-- What `split_statements` is to return. -/
def statementsOf (script : List Statement) : List (List Char) :=
  (script.map fun s => strip (visible s)).filter isKept

/-! ## Readers -/

/-- Where a reader is. Marks of two characters have a place between them. -/
inductive Place where
  | plain
  | single
  | double
  | dollarOpen
  | dollar
  | dollarClose
  | comment
  | blockOpen
  | block
  | blockClose
  deriving DecidableEq, Repr

/-- What a character is: kept, dropped with a line comment, or the end of a statement. -/
inductive Role where
  | keep
  | drop
  | stop
  deriving DecidableEq, Repr

/-- What a reader makes of a character, and where it is then. -/
def next (blocks : Bool) : Place → Char → Option Char → Role × Place
  | .plain, c, ahead =>
    if c = '-' ∧ ahead = some '-' then (.drop, .comment)
    else if c = '$' ∧ ahead = some '$' then (.keep, .dollarOpen)
    else if blocks ∧ c = '/' ∧ ahead = some '*' then (.keep, .blockOpen)
    else if c = ';' then (.stop, .plain)
    else (.keep, if c = '\'' then .single else if c = '"' then .double else .plain)
  | .single, c, _ => (.keep, if c = '\'' then .plain else .single)
  | .double, c, _ => (.keep, if c = '"' then .plain else .double)
  | .dollarOpen, _, _ => (.keep, .dollar)
  | .dollar, c, ahead => (.keep, if c = '$' ∧ ahead = some '$' then .dollarClose else .dollar)
  | .dollarClose, _, _ => (.keep, .plain)
  | .comment, c, _ => if c = '\n' then (.keep, .plain) else (.drop, .comment)
  | .blockOpen, _, _ => (.keep, .block)
  | .block, c, ahead => (.keep, if c = '*' ∧ ahead = some '/' then .blockClose else .block)
  | .blockClose, _, _ => (.keep, .plain)

/-- The roles of the characters. -/
def roles (blocks : Bool) : Place → List Char → List Role
  | _, [] => []
  | m, c :: l => (next blocks m c l.head?).1 :: roles blocks (next blocks m c l.head?).2 l

/-- The stripped statements, with what is read of the first one. -/
def cut (blocks : Bool) : Place → List Char → List Char → List (List Char)
  | _, buf, [] => [strip buf]
  | m, buf, c :: l =>
    match next blocks m c l.head? with
    | (.keep, m) => cut blocks m (buf ++ [c]) l
    | (.drop, m) => cut blocks m buf l
    | (.stop, m) => strip buf :: cut blocks m [] l

/-- A script that reads the same, character by character, whether `/*` begins a comment or not. -/
def ReadsAlike (sql : List Char) : Prop := roles false .plain sql = roles true .plain sql

end Caips.Database
