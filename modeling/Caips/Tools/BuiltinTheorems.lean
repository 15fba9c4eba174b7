/-
Caips.Tools.BuiltinTheorems — how large the integers of the calculator get.

What a node computes is measured against the length of its own text. Save for powers,
no operation exceeds what its operands leave it (`fits_of_calls`): a sum has one bit
more than they have, and one character. A power has as many bits as the exponent times
those of the base, and the guard bounds only the exponent, so that a base that is a
power itself, or a float made whole, goes past the bound; and a power of a negative
number may be complex. The bound holds where the operands of each power allow it, and
only there (`bounded_iff`).
-/
import Caips.Logic.Sync
import Caips.Tools.Builtin
import Mathlib.Algebra.Order.BigOperators.Group.List
import Mathlib.Logic.Relation

namespace Caips.Tools.Builtin

open Caips.Logic

variable {F : Type}

/-! ## Values of a size -/

/-- No complex number, and no integer with more bits. -/
def Value.Fits (bits : ℕ) : Value F → Prop
  | .int z => bitLength z ≤ bits
  | .float _ => True
  | .complex _ _ => False

theorem Value.Fits.mono {v : Value F} {m n : ℕ} (h : v.Fits m) (hmn : m ≤ n) : v.Fits n := by
  cases v with
  | int z => exact le_trans h hmn
  | float x => trivial
  | complex re im => exact h

theorem Value.Fits.isComplex {v : Value F} {n : ℕ} (h : v.Fits n) : v.isComplex = false := by
  cases v with
  | int z => rfl
  | float x => rfl
  | complex re im => exact h.elim

namespace Interpreter

variable {I : Interpreter F} {a b v : Value F} {m n k : ℕ} {op : Operator} {f : Func} {args : List (Value F)}

/-! ## What operations make of sizes -/

theorem fits_of_map_float {x : Except Fault F} (h : x.map .float = .ok v) : v.Fits n := by
  obtain ⟨y, -, rfl⟩ := map_ok_iff.mp h
  trivial

theorem inexact_fits (h : I.inexact op a b = .ok v) (ha : a.Fits m) (hb : b.Fits n) : v.Fits k := by
  rw [inexact, ha.isComplex, hb.isComplex] at h
  exact fits_of_map_float h

theorem exact_fits {g : ℤ → ℤ → ℤ} (hg : ∀ x y, bitLength x ≤ m → bitLength y ≤ n → bitLength (g x y) ≤ k)
    (h : I.exact op g a b = .ok v) (ha : a.Fits m) (hb : b.Fits n) : v.Fits k := by
  unfold exact at h
  split at h
  · obtain rfl := Except.ok.inj h
    exact hg _ _ ha hb
  · exact inexact_fits h ha hb

theorem division_fits {g : ℤ → ℤ → ℤ}
    (hg : ∀ x y, y ≠ 0 → bitLength x ≤ m → bitLength y ≤ n → bitLength (g x y) ≤ k)
    (h : I.division op g a b = .ok v) (ha : a.Fits m) (hb : b.Fits n) : v.Fits k := by
  unfold division at h
  split at h
  · split at h
    · exact nomatch h
    · next hne =>
        obtain rfl := Except.ok.inj h
        exact hg _ _ hne ha hb
  · rw [ha.isComplex, hb.isComplex] at h
    exact fits_of_map_float h

/-- An operator other than the power adds one bit at most to those of its operands. -/
theorem bin_fits {g : Value F → Value F → Except Fault (Value F)} (hbin : I.bin op = some g) (hop : op ≠ .pow)
    (h : g a b = .ok v) (ha : a.Fits m) (hb : b.Fits n) : v.Fits (m + n + 1) := by
  cases op with
  | add =>
    obtain rfl := Option.some.inj hbin
    refine exact_fits (fun x y hx hy => ?_) h ha hb
    exact bitLength_add_le (le_trans hx (by omega)) (le_trans hy (by omega))
  | sub =>
    obtain rfl := Option.some.inj hbin
    refine exact_fits (fun x y hx hy => ?_) h ha hb
    exact bitLength_sub_le (le_trans hx (by omega)) (le_trans hy (by omega))
  | mult =>
    obtain rfl := Option.some.inj hbin
    refine exact_fits (fun x y hx hy => ?_) h ha hb
    exact le_trans (bitLength_mul_le hx hy) (by omega)
  | div =>
    obtain rfl := Option.some.inj hbin
    exact inexact_fits h ha hb
  | floorDiv =>
    obtain rfl := Option.some.inj hbin
    refine division_fits (fun x y _ hx hy => ?_) h ha hb
    have hdiv := bitLength_fdiv_le x y
    omega
  | mod =>
    obtain rfl := Option.some.inj hbin
    refine division_fits (fun x y hne hx hy => ?_) h ha hb
    have hmod := bitLength_fmod_le x hne
    omega
  | pow => exact (hop rfl).elim
  | _ => exact nomatch hbin

theorem unary_fits {op : UnaryOperator} {g : Value F → Value F} (hunary : I.unary op = some g) (ha : a.Fits n) :
    (g a).Fits n := by
  cases op with
  | uAdd =>
    obtain rfl := Option.some.inj hunary
    exact ha
  | uSub =>
    obtain rfl := Option.some.inj hunary
    cases a with
    | int z => exact le_of_eq_of_le (bitLength_neg z) ha
    | float x => trivial
    | complex re im => exact ha
  | _ => exact nomatch hunary

theorem absolute_fits (h : I.absolute a = .ok v) (ha : a.Fits n) : v.Fits n := by
  cases a with
  | int z =>
    obtain rfl := Except.ok.inj h
    exact le_of_eq_of_le (bitLength_abs z) ha
  | float x => exact fits_of_map_float h
  | complex re im => exact ha.elim

theorem math_fits {arities : List ℕ} (h : I.math f arities args = .ok v) : v.Fits n := by
  unfold math at h
  split at h
  · exact fits_of_map_float h
  · exact nomatch h

theorem choose_fits {better : Value F → Value F → Bool} (h : I.choose f better args = .ok v)
    (hargs : ∀ a ∈ args, a.Fits n) : v.Fits n := by
  unfold choose at h
  split at h
  · next x y rest =>
      split at h
      · exact nomatch h
      · obtain rfl := Except.ok.inj h
        refine List.foldlRecOn (motive := (Value.Fits n ·)) (y :: rest) _ (hargs x (by simp)) fun best hbest item hitem => ?_
        split
        · exact hargs item (List.mem_cons_of_mem x hitem)
        · exact hbest
  · exact nomatch h

theorem whole_fits {x : F} (h : (I.whole f x).map Value.int = .ok v) (hn : 1024 ≤ n) : v.Fits n := by
  obtain ⟨z, hz, rfl⟩ := map_ok_iff.mp h
  exact le_trans (I.bitLength_whole f x z hz) hn

theorem toWhole_fits (h : I.toWhole f args = .ok v) (hargs : ∀ a ∈ args, a.Fits n) (hn : 1024 ≤ n) : v.Fits n := by
  unfold toWhole at h
  split at h
  · obtain rfl := Except.ok.inj h
    exact hargs _ (by simp)
  · exact whole_fits h hn
  · exact nomatch h

theorem bitLength_roundTens {z : ℤ} (digits : ℤ) (hz : bitLength z ≤ n) : bitLength (roundTens z digits) ≤ n + 1 := by
  unfold roundTens
  split
  · omega
  · exact bitLength_le_succ (natAbs_nearestEven_mul_le z (by positivity)) hz

theorem round_fits (h : I.round args = .ok v) (hargs : ∀ a ∈ args, a.Fits n) (hn : 1024 ≤ n + 1) : v.Fits (n + 1) := by
  unfold round at h
  split at h
  · next z =>
      obtain rfl := Except.ok.inj h
      exact (hargs (.int z) (by simp)).mono (by omega)
  · exact whole_fits h hn
  · next z digits =>
      obtain rfl := Except.ok.inj h
      exact bitLength_roundTens digits (hargs (.int z) (by simp))
  · exact fits_of_map_float h
  · exact nomatch h

/-- The functions that make integers of floats. -/
def MakesWhole (f : Func) : Prop := f = .round ∨ f = .floor ∨ f = .ceil

/-- A function adds one bit at most to those of its arguments, or gives those of a float. -/
theorem apply_fits (h : I.apply args f = .ok v) (hargs : ∀ a ∈ args, a.Fits n) (hn : n + 1 ≤ k)
    (hwhole : MakesWhole f → 1024 ≤ k) : v.Fits k := by
  have hk : ∀ a ∈ args, a.Fits (k - 1) := fun a ha => (hargs a ha).mono (by omega)
  have hk' : ∀ a ∈ args, a.Fits k := fun a ha => (hargs a ha).mono (by omega)
  cases f with
  | abs =>
    obtain _ | ⟨x, _ | ⟨y, rest⟩⟩ := args
    · exact nomatch h
    · exact absolute_fits h (hk' x (by simp))
    · exact nomatch h
  | round =>
    have hfloat := hwhole (.inl rfl)
    exact (round_fits h hk (by omega)).mono (by omega)
  | min => exact choose_fits h hk'
  | max => exact choose_fits h hk'
  | floor => exact toWhole_fits h hk' (hwhole (.inr (.inl rfl)))
  | ceil => exact toWhole_fits h hk' (hwhole (.inr (.inr rfl)))
  | _ => exact math_fits h

/-! ## The parts that are evaluated -/

variable (I) in
/-- `ev` of the first node calls `ev` of the second. -/
inductive Calls : Node F → Node F → Prop
  | body {body} : Calls (.expression body) body
  | left {len left op right g} (hop : I.bin op = some g) : Calls (.binOp len left op right) left
  | right {len left op right g a} (hop : I.bin op = some g) (ha : I.ev left = .ok a) :
      Calls (.binOp len left op right) right
  | operand {len op operand g} (hop : I.unary op = some g) : Calls (.unaryOp len op operand) operand
  | arg {len len' id f before a after} (hf : funcs.lookup id = some f) (hbefore : ∀ b ∈ before, ∃ v, I.ev b = .ok v) :
      Calls (.call len (.name len' id) (before ++ a :: after) false) a

variable (I) in
/-- The second node is evaluated in the course of the evaluation of the first. -/
def Reached : Node F → Node F → Prop := Relation.ReflTransGen I.Calls

/-- `4 * MAX_POW` bits for each character. -/
def limit (len : ℕ) : ℕ := 4 * maxPow * len

variable (I) in
/-- The integers that the evaluation of a node computes itself: its value, the size of
an exponent, and the power of ten to which `round` rounds an integer. -/
inductive Computes : Node F → ℤ → Prop
  | value {s z} (h : I.ev s = .ok (.int z)) : Computes s z
  | size {len left right a b} (ha : I.ev left = .ok a) (hb : I.ev right = .ok (.int b)) :
      Computes (.binOp len left .pow right) |b|
  | tens {len len' id args a digits} (hf : funcs.lookup id = some .round)
      (hargs : I.evArgs args = .ok [.int a, .int digits]) (hneg : digits < 0) :
      Computes (.call len (.name len' id) args false) (10 ^ digits.natAbs)

variable (I) in
/-- The operands of a power do not make too much of it: an integer to an integer has few
enough bits, and no negative number is raised to a fractional exponent. -/
def PowFits (bits : ℕ) : Value F → Value F → Prop
  | .int a, .int b => 0 ≤ b → a.natAbs ^ b.toNat < 2 ^ bits
  | a, b => I.negative a = true → I.fractional b = true → ∀ c, I.complexOp .pow a b ≠ .ok c

variable (I) in
/-- The operands of a power that the guard lets pass fit its text, and so does the power of
ten to which `round` rounds. -/
def Fine : Node F → Prop
  | .binOp len left .pow right => ∀ a b, I.ev left = .ok a → I.ev right = .ok b →
      I.guardPow .pow b = .ok () → I.PowFits (limit len) a b
  | .call len (.name _ id) args false => funcs.lookup id = some .round →
      ∀ a digits : ℤ, I.evArgs args = .ok [.int a, .int digits] → digits < 0 → 10 ^ digits.natAbs < 2 ^ limit len
  | _ => True

variable (I) in
/-- What the evaluation of a node computes itself is a number that is not complex, and
integers with as many bits as the length allows. -/
structure BoundedPart (len : ℕ) (s : Node F) : Prop where
  plain : ∀ v, I.ev s = .ok v → v.isComplex = false
  bits : ∀ z, I.Computes s z → bitLength z ≤ limit len

/-! ## When a node has a value -/

variable {len : ℕ} {left right : Node F}

theorem ev_binOp : I.ev (.binOp len left op right) = .ok v ↔
    ∃ g a b, I.bin op = some g ∧ I.ev left = .ok a ∧ I.ev right = .ok b ∧ I.guardPow op b = .ok () ∧ g a b = .ok v := by
  rw [ev]
  cases I.bin op with
  | none => simp [onlyArithmetic]
  | some g => simp [bind_ok_iff, mapError_ok_iff, Unique.exists_iff]

theorem ev_unaryOp {op : UnaryOperator} {operand : Node F} : I.ev (.unaryOp len op operand) = .ok v ↔
    ∃ g a, I.unary op = some g ∧ I.ev operand = .ok a ∧ g a = v := by
  rw [ev]
  cases I.unary op with
  | none => simp [onlyArithmetic]
  | some g => simp [bind_ok_iff]

theorem ev_call {func : Node F} {nodes : List (Node F)} {keywords : Bool} :
    I.ev (.call len func nodes keywords) = .ok v ↔ ∃ len' id f values, func = .name len' id ∧ keywords = false ∧
      funcs.lookup id = some f ∧ I.evArgs nodes = .ok values ∧ I.apply values f = .ok v := by
  cases func with
  | name len' id =>
    cases keywords with
    | false =>
      rw [ev]
      cases hf : funcs.lookup id with
      | none => simp [onlyArithmetic, hf]
      | some f => simp [bind_ok_iff, mapError_ok_iff, hf]
    | true => simp [ev, onlyArithmetic]
  | _ => simp [ev, onlyArithmetic]

theorem forall₂_of_evArgs : ∀ {nodes : List (Node F)} {values : List (Value F)}, I.evArgs nodes = .ok values →
    List.Forall₂ (fun node v => I.ev node = .ok v) nodes values
  | [], values, h => by
      obtain rfl := Except.ok.inj h
      exact .nil
  | node :: nodes, values, h => by
      obtain ⟨a, ha, h⟩ := ok_of_bind h
      obtain ⟨rest, hrest, h⟩ := ok_of_bind h
      obtain rfl := Except.ok.inj h
      exact .cons ha (forall₂_of_evArgs hrest)

/-! ## A part is as large as its text allows -/

variable (I) in
/-- The value of a node has at most `4 * m` bits for each character. -/
def FitsLen (m : ℕ) (s : Node F) : Prop := ∀ v, I.ev s = .ok v → v.Fits (4 * m * s.len)

def IsPow : Node F → Prop
  | .binOp _ _ op _ => op = .pow
  | _ => False

/-- A call of a function that makes integers of floats. -/
def IsWhole : Node F → Prop
  | .call _ (.name _ id) _ _ => ∃ f, funcs.lookup id = some f ∧ MakesWhole f
  | _ => False

variable {s c tree : Node F}

/-- The arguments of a call that has a value are called, and their values are no larger
than their texts allow. -/
theorem evArgs_fits {len len' : ℕ} {id : String} {nodes : List (Node F)} (hf : funcs.lookup id = some f)
    (hcalls : ∀ c, I.Calls (.call len (.name len' id) nodes false) c → I.FitsLen m c)
    (h : I.evArgs nodes = .ok args) : ∀ v ∈ args, v.Fits (4 * m * (nodes.map Node.len).sum) := by
  intro v hv
  have hall := forall₂_of_evArgs h
  obtain ⟨node, hnode, hvalue⟩ := exists_of_forall₂ hall.flip v hv
  obtain ⟨before, after, rfl⟩ := List.append_of_mem hnode
  have hcall : I.Calls (.call len (.name len' id) (before ++ node :: after) false) node := by
    refine .arg hf fun b hb => ?_
    obtain ⟨w, -, hw⟩ := exists_of_forall₂ hall b (List.mem_append_left _ hb)
    exact ⟨w, hw⟩
  refine (hcalls node hcall v hvalue).mono (Nat.mul_le_mul_left _ ?_)
  exact List.le_sum_of_mem (List.mem_map_of_mem hnode)

/-- What a node makes of the values of the nodes it calls. -/
theorem fits_of_calls (hm : 0 < m) (h : s.Spelled) (hcalls : ∀ c, I.Calls s c → I.FitsLen m c)
    (hpow : IsPow s → I.FitsLen m s) (hwhole : IsWhole s → 256 ≤ m) : I.FitsLen m s := by
  intro v hv
  cases h with
  | expression hbody => exact hcalls _ .body v hv
  | int hlen =>
    obtain rfl := Except.ok.inj hv
    exact le_trans hlen (Nat.mul_le_mul_right _ (by omega))
  | float =>
    obtain rfl := Except.ok.inj hv
    trivial
  | constant => exact nomatch hv
  | name =>
    unfold ev at hv
    split at hv
    · obtain rfl := Except.ok.inj hv
      trivial
    · exact nomatch hv
  | @binOp len left op right hleft hright hlen =>
    by_cases hop : op = .pow
    · exact hpow hop v hv
    · obtain ⟨g, a, b, hbin, ha, hb, -, hv⟩ := ev_binOp.mp hv
      have hfits := bin_fits hbin hop hv (hcalls left (.left hbin) a ha) (hcalls right (.right hbin ha) b hb)
      refine hfits.mono ?_
      calc 4 * m * left.len + 4 * m * right.len + 1 ≤ 4 * m * (left.len + right.len + 1) := by
            rw [mul_add, mul_add]
            omega
        _ ≤ 4 * m * len := Nat.mul_le_mul_left _ hlen
  | @unaryOp len op operand hoperand hlen =>
    obtain ⟨g, a, hunary, ha, rfl⟩ := ev_unaryOp.mp hv
    refine (unary_fits hunary (hcalls operand (.operand hunary) a ha)).mono (Nat.mul_le_mul_left _ ?_)
    exact le_trans (Nat.le_succ _) hlen
  | @call len func nodes keywords hargs hlen =>
    obtain ⟨len', id, f, values, rfl, rfl, hf, hvalues, hv⟩ := ev_call.mp hv
    refine apply_fits hv (evArgs_fits hf hcalls hvalues) ?_ fun hmakes => ?_
    · calc 4 * m * (nodes.map Node.len).sum + 1 ≤ 4 * m * ((nodes.map Node.len).sum + 1) := by
            rw [mul_add]
            omega
        _ ≤ 4 * m * len := Nat.mul_le_mul_left _ hlen
    · have hlarge := hwhole ⟨f, hf, hmakes⟩
      calc 1024 ≤ 4 * m * 1 := by omega
        _ ≤ 4 * m * len := Nat.mul_le_mul_left _ (by omega)
  | other => exact nomatch hv

/-- What is called has its place in the text of the caller. -/
theorem Calls.spelled (h : I.Calls s c) (hs : s.Spelled) : c.Spelled ∧ c.len ≤ s.len := by
  cases h with
  | body =>
    cases hs with
    | expression hbody => exact ⟨hbody, le_rfl⟩
  | left =>
    cases hs with
    | binOp hleft hright hlen =>
      refine ⟨hleft, le_trans ?_ hlen⟩
      omega
  | right =>
    cases hs with
    | binOp hleft hright hlen =>
      refine ⟨hright, le_trans ?_ hlen⟩
      omega
  | operand =>
    cases hs with
    | unaryOp hoperand hlen => exact ⟨hoperand, le_trans (Nat.le_succ _) hlen⟩
  | @arg len len' id f before a after hf hbefore =>
    cases hs with
    | call hargs hlen =>
      have hmem : c ∈ before ++ c :: after := by simp
      have hle := List.le_sum_of_mem (List.mem_map_of_mem (f := Node.len) hmem)
      refine ⟨hargs c hmem, le_trans (le_trans hle (Nat.le_succ _)) hlen⟩

theorem Reached.spelled (h : I.Reached tree s) (ht : tree.Spelled) : s.Spelled ∧ s.len ≤ tree.len := by
  induction h with
  | refl => exact ⟨ht, le_rfl⟩
  | tail _ hcall ih =>
    obtain ⟨hs, hlen⟩ := ih
    have hc := hcall.spelled hs
    exact ⟨hc.1, hc.2.trans hlen⟩

/-- Induction over a tree, along the calls of `ev`. -/
theorem induction_calls {motive : Node F → Prop} (step : ∀ s, s.Spelled → (∀ c, I.Calls s c → motive c) → motive s)
    (h : tree.Spelled) : motive tree := by
  induction h with
  | expression hbody ih =>
    refine step _ (.expression hbody) fun c hc => ?_
    cases hc
    exact ih
  | int hlen => exact step _ (.int hlen) fun c hc => nomatch hc
  | float => exact step _ .float fun c hc => nomatch hc
  | constant => exact step _ .constant fun c hc => nomatch hc
  | name => exact step _ .name fun c hc => nomatch hc
  | binOp hleft hright hlen ihleft ihright =>
    refine step _ (.binOp hleft hright hlen) fun c hc => ?_
    cases hc with
    | left => exact ihleft
    | right => exact ihright
  | unaryOp hoperand hlen ih =>
    refine step _ (.unaryOp hoperand hlen) fun c hc => ?_
    cases hc
    exact ih
  | call hargs hlen ih =>
    refine step _ (.call hargs hlen) fun c hc => ?_
    cases hc
    exact ih c (by simp)
  | other => exact step _ .other fun c hc => nomatch hc

theorem fits_of_reached (hm : 0 < m) (ht : tree.Spelled)
    (hpow : ∀ s, I.Reached tree s → IsPow s → (∀ c, I.Calls s c → I.FitsLen m c) → I.FitsLen m s)
    (hwhole : ∀ s, I.Reached tree s → IsWhole s → 256 ≤ m) (hs : I.Reached tree s) : I.FitsLen m s := by
  refine induction_calls (I := I) (motive := fun s => I.Reached tree s → I.FitsLen m s) ?_ (hs.spelled ht).1 hs
  intro s hspelled hcalls hs
  have hfits : ∀ c, I.Calls s c → I.FitsLen m c := fun c hc => hcalls c hc (hs.tail hc)
  exact fits_of_calls hm hspelled hfits (fun h => hpow s hs h hfits) (hwhole s hs)

/-! ## Powers -/

theorem ev_pow : I.ev (.binOp len left .pow right) = .ok v ↔
    ∃ a b, I.ev left = .ok a ∧ I.ev right = .ok b ∧ I.guardPow .pow b = .ok () ∧ I.pow a b = .ok v := by
  rw [ev_binOp]
  simp [bin]

theorem pow_int {x y : ℤ} (hy : 0 ≤ y) : I.pow (.int x) (.int y) = .ok (.int (x ^ y.toNat)) := if_pos hy

/-- A power that is not one of integers is a float, unless it is complex. -/
theorem real_pow_fits_iff (ha : a.Fits m) (hb : b.Fits n) :
    (∀ v, (if I.negative a && I.fractional b then I.complex .pow a b else I.inexact .pow a b) = .ok v → v.Fits k) ↔
      (I.negative a = true → I.fractional b = true → ∀ c, I.complexOp .pow a b ≠ .ok c) := by
  constructor
  · intro h hneg hfrac c hc
    refine h (.complex c.1 c.2) ?_
    rw [hneg, hfrac]
    exact map_ok_iff.mpr ⟨c, hc, rfl⟩
  · intro h v hv
    split at hv
    · next hboth =>
        obtain ⟨hneg, hfrac⟩ := Bool.and_eq_true_iff.mp hboth
        obtain ⟨c, hc, -⟩ := map_ok_iff.mp hv
        exact (h hneg hfrac c hc).elim
    · exact inexact_fits hv ha hb

/-- A power is no larger than the bound exactly if its operands say so. -/
theorem pow_fits_iff (ha : a.Fits m) (hb : b.Fits n) :
    (∀ v, I.pow a b = .ok v → v.Fits k) ↔ I.PowFits k a b := by
  cases a with
  | complex re im => exact ha.elim
  | float x => exact real_pow_fits_iff ha hb
  | int x =>
    cases b with
    | complex re im => exact hb.elim
    | float y => exact real_pow_fits_iff ha hb
    | int y =>
      constructor
      · intro h hy
        have hfits : bitLength (x ^ y.toNat) ≤ k := h _ (pow_int hy)
        exact bitLength_pow_le_iff.mp hfits
      · intro h v hv
        by_cases hy : 0 ≤ y
        · rw [pow_int hy] at hv
          obtain rfl := Except.ok.inj hv
          exact bitLength_pow_le_iff.mpr (h hy)
        · simp only [pow, if_neg hy] at hv
          exact fits_of_map_float hv

/-- A power fits exactly if it is fine. -/
theorem fitsLen_iff_fine (hpow : IsPow s) (hcalls : ∀ c, I.Calls s c → I.FitsLen maxPow c) :
    I.FitsLen maxPow s ↔ I.Fine s := by
  cases s with
  | binOp len left op right =>
    obtain rfl : op = .pow := hpow
    have hoperands : ∀ a b, I.ev left = .ok a → I.ev right = .ok b →
        ((∀ v, I.pow a b = .ok v → v.Fits (limit len)) ↔ I.PowFits (limit len) a b) := fun a b ha hb =>
      pow_fits_iff (hcalls left (.left rfl) a ha) (hcalls right (.right rfl ha) b hb)
    constructor
    · intro h a b ha hb hguard
      exact (hoperands a b ha hb).mp fun v hv => h v (ev_pow.mpr ⟨a, b, ha, hb, hguard, hv⟩)
    · intro h v hv
      obtain ⟨a, b, ha, hb, hguard, hv⟩ := ev_pow.mp hv
      exact (hoperands a b ha hb).mpr (h a b ha hb hguard) v hv
  | _ => exact hpow.elim

/-! ## The bound -/

variable (I) (P : Parser F) (text : String) in
/-- What is evaluated of a text. -/
def Part (s : Node F) : Prop := text.length ≤ 500 ∧ ∃ tree, P.parse text = .ok tree ∧ I.Reached tree s

variable (I) (P : Parser F) (text : String) in
/-- The result of an expression, if it has one, is not complex, and no integer computed on
the way has more than `4 * MAX_POW` bits for each character of it. -/
structure Bounded : Prop where
  plain : ∀ v, I.safeEval P text = .ok v → v.isComplex = false
  bits : ∀ s, I.Part P text s → ∀ z, I.Computes s z → bitLength z ≤ limit text.length

variable {P : Parser F} {text : String}

theorem fits_of_fine (ht : tree.Spelled) (hfine : ∀ s, I.Reached tree s → I.Fine s) (hs : I.Reached tree s) :
    I.FitsLen maxPow s :=
  fits_of_reached (by decide) ht (fun s hs hpow hcalls => (fitsLen_iff_fine hpow hcalls).mpr (hfine s hs))
    (fun _ _ _ => by decide) hs

/-- A part that is fine, as are all below it, is bounded. -/
theorem boundedPart_of_fine (ht : tree.Spelled) (hfine : ∀ s, I.Reached tree s → I.Fine s) (hs : I.Reached tree s) :
    I.BoundedPart s.len s where
  plain v hv := (fits_of_fine ht hfine hs v hv).isComplex
  bits z hz := by
    cases hz with
    | value h => exact fits_of_fine ht hfine hs _ h
    | @size len left right a b ha hb =>
      have hcall : I.Calls (.binOp len left .pow right) right := .right rfl ha
      have hright := fits_of_fine ht hfine (hs.tail hcall) _ hb
      rw [bitLength_abs]
      exact le_trans hright (Nat.mul_le_mul_left _ (hcall.spelled (hs.spelled ht).1).2)
    | tens hf hargs hneg =>
      exact bitLength_pow_le_iff.mpr (hfine _ hs hf _ _ hargs hneg)

theorem BoundedPart.fitsLen (h : I.BoundedPart s.len s) : I.FitsLen maxPow s := by
  intro v hv
  cases v with
  | int z => exact h.bits z (.value hv)
  | float x => trivial
  | complex re im => exact nomatch h.plain _ hv

theorem BoundedPart.fine (h : I.BoundedPart s.len s) (hcalls : ∀ c, I.Calls s c → I.FitsLen maxPow c) : I.Fine s := by
  by_cases hpow : IsPow s
  · exact (fitsLen_iff_fine hpow hcalls).mp h.fitsLen
  · unfold Fine
    split
    · exact (hpow rfl).elim
    · intro hf a digits hargs hneg
      exact bitLength_pow_le_iff.mp (h.bits _ (.tens hf hargs hneg))
    · trivial

theorem safeEval_ok {v : Value F} (h : I.safeEval P text = .ok v) :
    text.length ≤ 500 ∧ ∃ tree, P.parse text = .ok tree ∧ I.ev tree = .ok v := by
  unfold safeEval at h
  split at h
  · exact nomatch h
  · next hlen =>
      split at h
      · exact nomatch h
      · next tree htree =>
          refine ⟨not_lt.mp hlen, tree, htree, ?_⟩
          split at h
          · next value hvalue =>
              obtain rfl := Except.ok.inj h
              exact hvalue
          · exact nomatch h
          · exact nomatch h

theorem bounded_of_parts (h : ∀ s, I.Part P text s → I.BoundedPart s.len s) : I.Bounded P text where
  plain v hv := by
    obtain ⟨hlen, tree, htree, hv⟩ := safeEval_ok hv
    exact (h tree ⟨hlen, tree, htree, .refl⟩).plain v hv
  bits s hs z hz := by
    obtain ⟨-, tree, htree, hreached⟩ := id hs
    obtain ⟨hspelled, hlen⟩ := P.spelled text tree htree
    have hshort := (hreached.spelled hspelled).2.trans hlen
    exact le_trans ((h s hs).bits z hz) (Nat.mul_le_mul_left _ hshort)

/-- An expression and each of its parts keep the bound of their own texts, exactly if the
operands of each power and of each rounding to tens allow it. -/
theorem bounded_iff : (I.Bounded P text ∧ ∀ s, I.Part P text s → I.BoundedPart s.len s) ↔
    ∀ s, I.Part P text s → I.Fine s := by
  constructor
  · rintro ⟨-, hparts⟩ s ⟨hlen, tree, htree, hs⟩
    exact (hparts s ⟨hlen, tree, htree, hs⟩).fine fun c hc => (hparts c ⟨hlen, tree, htree, hs.tail hc⟩).fitsLen
  · intro hfine
    have hparts : ∀ s, I.Part P text s → I.BoundedPart s.len s := by
      rintro s ⟨hlen, tree, htree, hs⟩
      exact boundedPart_of_fine (P.spelled text tree htree).1
        (fun s hs => hfine s ⟨hlen, tree, htree, hs⟩) hs
    exact ⟨bounded_of_parts hparts, hparts⟩

theorem safeEval_of_ev (hlen : text.length ≤ 500) (htree : P.parse text = .ok tree) (hv : I.ev tree = .ok v) :
    I.safeEval P text = .ok v := by
  simp [safeEval, hlen.not_gt, htree, hv]

/-- An expression whose operands are fine is bounded exactly if its own operation is. -/
theorem bounded_iff_fine (hlen : text.length ≤ 500) (htree : P.parse text = .ok (.expression s))
    (hall : text.length = s.len) (hbelow : ∀ c r, I.Calls s c → I.Reached c r → I.Fine r) :
    I.Bounded P text ↔ I.Fine s := by
  have hspelled : (Node.expression s).Spelled := (P.spelled text _ htree).1
  have hs : I.Reached (.expression s) s := .single .body
  constructor
  · intro h
    have hbounded : I.BoundedPart s.len s := by
      rw [← hall]
      exact ⟨fun v hv => h.plain v (safeEval_of_ev hlen htree hv), h.bits s ⟨hlen, _, htree, hs⟩⟩
    exact hbounded.fine fun c hc =>
      fits_of_fine (hc.spelled (hs.spelled hspelled).1).1 (fun r hr => hbelow c r hc hr) .refl
  · intro hfine
    refine (bounded_iff.mpr ?_).1
    intro r hr
    obtain ⟨-, tree, htree', hreached⟩ := hr
    obtain rfl := Except.ok.inj (htree.symm.trans htree')
    obtain rfl | ⟨c, hc, hcr⟩ := Relation.ReflTransGen.cases_head hreached
    · trivial
    · cases hc
      obtain rfl | ⟨c, hc, hcr⟩ := Relation.ReflTransGen.cases_head hcr
      · exact hfine
      · exact hbelow c r hc hcr

/-! ## Powers that are not nested -/

theorem guardPow_int {y : ℤ} : I.guardPow .pow (.int y) = .ok () ↔ y.natAbs ≤ maxPow := by
  have hguard : I.guardPow .pow (.int y) =
      if (maxPow : ℤ) < |y| then .error (.tool (invalidArguments "Exponent too large.")) else .ok () := by
    simp [guardPow, absolute, lt, Except.mapError, bind, Except.bind]
  rw [hguard, Int.abs_eq_natAbs]
  constructor
  · intro h
    split at h
    · exact nomatch h
    · omega
  · intro h
    exact if_neg (by omega)

/-- The guard is enough for a base that holds no power and makes no integer of a float. -/
theorem powFits_of_flat (hs : (Node.binOp len left .pow right).Spelled)
    (hflat : ∀ s, I.Reached left s → ¬IsPow s ∧ ¬IsWhole s) {x y : ℤ} (ha : I.ev left = .ok (.int x))
    (hguard : I.guardPow .pow (.int y) = .ok ()) : I.PowFits (limit len) (.int x) (.int y) := by
  intro hy
  cases hs with
  | binOp hleft hright hlen =>
    have hbase : I.FitsLen 1 left := fits_of_reached one_pos hleft (fun s hs hpow _ => absurd hpow (hflat s hs).1)
      (fun s hs hwhole => absurd hwhole (hflat s hs).2) .refl
    have hbits : bitLength x ≤ 4 * 1 * left.len := hbase _ ha
    have hexponent := guardPow_int.mp hguard
    rw [← bitLength_pow_le_iff]
    obtain hzero | hpos := Nat.eq_zero_or_pos y.toNat
    · rw [hzero, pow_zero]
      calc bitLength 1 ≤ 4 * maxPow * 1 := by decide
        _ ≤ limit len := Nat.mul_le_mul_left _ (by omega)
    · calc bitLength (x ^ y.toNat) ≤ 4 * 1 * left.len * y.toNat := bitLength_pow_le hbits hpos
        _ ≤ 4 * 1 * left.len * maxPow := Nat.mul_le_mul_left _ (by omega)
        _ = 4 * maxPow * left.len := by ring
        _ ≤ limit len := Nat.mul_le_mul_left _ (by omega)

/-! ## A power of a power -/

/-- An interpreter with one float, where every operation that would give one overflows. -/
def overflowing : Interpreter Unit where
  pi := ()
  e := ()
  neg := id
  less _ _ := false
  realOp _ _ _ := .error { cls := .overflowError, text := "math range error" }
  complexOp _ _ _ := .error { cls := .overflowError, text := "complex exponentiation" }
  realFunc _ _ := .error { cls := .overflowError, text := "math range error" }
  whole _ _ := .error { cls := .overflowError, text := "cannot convert float infinity to integer" }
  isNegative _ := false
  isFractional _ := false
  operatorText _ _ _ := "unsupported operand type(s)"
  funcText _ _ := "must be real number"
  bitLength_whole _ _ _ h := nomatch h

/-- `9**99` -/
def innerPower : Node Unit := .binOp 5 (.constant 1 (.int 9)) .pow (.constant 2 (.int 99))

/-- `(9**99)**9999` -/
def nestedPower : Node Unit := .expression (.binOp 13 innerPower .pow (.constant 4 (.int 9999)))

def nestedPowerParser : Parser Unit where
  parse text := if text = "(9**99)**9999" then .ok nestedPower else .error "invalid syntax"
  spelled text tree h := by
    split at h
    · next htext =>
        obtain rfl := Except.ok.inj h
        subst htext
        have hinner : innerPower.Spelled := .binOp (.int (by decide)) (.int (by decide)) (by decide)
        exact ⟨.expression (.binOp hinner (.int (by decide)) (by decide)), by decide⟩
    · exact nomatch h

/-- The guard looks at each exponent alone. -/
theorem nested_power_unbounded : ¬overflowing.Bounded nestedPowerParser "(9**99)**9999" := by
  intro h
  have hinner : overflowing.ev innerPower = .ok (.int (9 ^ 99)) :=
    ev_pow.mpr ⟨.int 9, .int 99, rfl, rfl, guardPow_int.mpr (by decide), pow_int (by decide)⟩
  have houter : overflowing.ev (.binOp 13 innerPower .pow (.constant 4 (.int 9999))) = .ok (.int ((9 ^ 99) ^ 9999)) :=
    ev_pow.mpr ⟨.int (9 ^ 99), .int 9999, hinner, rfl, guardPow_int.mpr (by decide), pow_int (by decide)⟩
  have hpart : overflowing.Part nestedPowerParser "(9**99)**9999" (.binOp 13 innerPower .pow (.constant 4 (.int 9999))) :=
    ⟨by decide, nestedPower, rfl, .single .body⟩
  have hbits := bitLength_pow_le_iff.mp (h.bits _ hpart _ (.value houter))
  have hbase : 2 ^ 250 ≤ ((9 : ℤ) ^ 99).natAbs := by decide
  have hlarge : ∀ n k : ℕ, n ≤ 250 * k → 2 ^ n ≤ ((9 : ℤ) ^ 99).natAbs ^ k := by
    intro n k hn
    calc 2 ^ n ≤ 2 ^ (250 * k) := Nat.pow_le_pow_right two_pos hn
      _ = (2 ^ 250) ^ k := pow_mul 2 250 k
      _ ≤ ((9 : ℤ) ^ 99).natAbs ^ k := Nat.pow_le_pow_left hbase k
  have hlimit : limit "(9**99)**9999".length ≤ 250 * 9999 := by decide
  generalize limit "(9**99)**9999".length = n at hbits hlimit
  exact absurd hbits (Nat.not_lt.mpr (hlarge n 9999 hlimit))

end Interpreter

end Caips.Tools.Builtin
