/-
Caips.Rag.StoreTheorems — what re-indexing keeps, and what holds while calls
wait for their vectors.

The DELETE comes before the rows are built and opens a transaction that a
failure there leaves open. The next call on the connection that commits, commits
it: `failed_ingest_keeps_iff` says for which failures the chunks of the source
are safe. The limit is checked before the await and not again, so
`ingestions_within_iff` compares it with what is there at the write; that the
rows of a source are those of one text needs no such condition.
-/
import Caips.Rag.Store

namespace Caips.Rag

open Caips.Logic

section Rows

variable {μ ν β δ : Type} {L : Library μ ν β δ}

theorem buildRows_eq_some {call : Ingest μ} : ∀ {i : ℕ} {chunks : List (List Char)} {vecs : List ν}
    {rows : List (Chunk β δ)}, vecs.length = chunks.length → buildRows L call i chunks vecs = some rows →
      rows.map (fun c => (c.text, c.idx)) = chunks.zipIdx i ∧ ∀ c ∈ rows, c.scope = call.scope
  | _, [], _, rows, _, h => by
      obtain rfl : [] = rows := by simpa [buildRows] using h
      simp
  | i, c :: chunks, [], _, hlen, _ => by simp at hlen
  | i, c :: chunks, v :: vecs, rows, hlen, h => by
      simp only [buildRows, Option.bind_eq_bind, Option.bind_eq_some_iff] at h
      obtain ⟨metadata, -, vec, -, rest, hrest, h⟩ := h
      obtain ⟨hmap, hscope⟩ := buildRows_eq_some (Nat.succ.inj hlen) hrest
      obtain rfl := Option.some.inj h
      constructor
      · simp [hmap]
      · simpa using hscope

theorem chunksOf_deleteRows {scope : Scope} {rows : List (Chunk β δ)} :
    chunksOf scope (deleteRows scope rows) = [] := by
  simp [chunksOf, deleteRows]

theorem chunksOf_deleteRows_ne {scope other : Scope} (h : other ≠ scope) (rows : List (Chunk β δ)) :
    chunksOf scope (deleteRows other rows) = chunksOf scope rows := by
  unfold chunksOf deleteRows
  rw [List.filter_filter]
  refine List.filter_congr fun c _ => ?_
  simp only [Bool.and_eq_decide, decide_eq_decide, decide_eq_true_eq]
  exact ⟨And.left, fun hc => ⟨hc, fun ho => h (ho.symm.trans hc)⟩⟩

theorem chunksOf_append (scope : Scope) (rows new : List (Chunk β δ)) :
    chunksOf scope (rows ++ new) = chunksOf scope rows ++ chunksOf scope new := List.filter_append ..

theorem chunksOf_of_scope {scope : Scope} {rows : List (Chunk β δ)} (h : ∀ c ∈ rows, c.scope = scope) :
    chunksOf scope rows = rows := List.filter_eq_self.mpr fun c hc => by simp [h c hc]

theorem chunksOf_of_scope_ne {scope other : Scope} (hne : other ≠ scope) {rows : List (Chunk β δ)}
    (h : ∀ c ∈ rows, c.scope = other) : chunksOf scope rows = [] :=
  List.filter_eq_nil_iff.mpr fun c hc => by simp [h c hc, hne]

/-- What `finishIngest` can do: nothing, the DELETE alone, or all of it. -/
theorem finishIngest_cases (db : Db β δ) (call : Ingest μ) (chunks : List (List Char)) (vecs : Option (List ν)) :
    (∃ e, finishIngest L db call chunks vecs = (.error e, db) ∧ ∀ vs, vecs = some vs → vs.length ≠ chunks.length) ∨
    (∃ vs, vecs = some vs ∧ vs.length = chunks.length ∧ buildRows L call 0 chunks vs = none ∧
      finishIngest L db call chunks vecs = (.error .row, db.change (deleteRows call.scope))) ∨
    ∃ vs rows, vecs = some vs ∧ vs.length = chunks.length ∧ buildRows L call 0 chunks vs = some rows ∧
      finishIngest L db call chunks vecs =
        (.ok chunks.length, ((db.change (deleteRows call.scope)).change (· ++ rows)).commit) := by
  cases vecs with
  | none => exact .inl ⟨.embed, rfl, by simp⟩
  | some vs =>
    by_cases hlen : vs.length = chunks.length
    · cases hrows : buildRows L call 0 chunks vs with
      | none => exact .inr (.inl ⟨vs, rfl, hlen, hrows, by simp [finishIngest, hlen, hrows]⟩)
      | some rows => exact .inr (.inr ⟨vs, rows, rfl, hlen, hrows, by simp [finishIngest, hlen, hrows]⟩)
    · refine .inl ⟨.runtime "embedding count mismatch", by simp [finishIngest, hlen], ?_⟩
      intro vs' h
      exact Option.some.inj h ▸ hlen

/-- A write to another source leaves the chunks of this one alone. -/
theorem leaves_finishIngest {scope : Scope} {call : Ingest μ} (h : call.scope ≠ scope) (db : Db β δ)
    (chunks : List (List Char)) (vecs : Option (List ν)) :
    Commit.Leaves (chunksOf scope) db (finishIngest L db call chunks vecs).2 := by
  have hdelete : Commit.Leaves (chunksOf scope) db (db.change (deleteRows call.scope)) :=
    .change db (chunksOf_deleteRows_ne h _)
  rcases finishIngest_cases (L := L) db call chunks vecs with ⟨e, heq, -⟩ | ⟨vs, -, -, -, heq⟩ |
    ⟨vs, rows, -, hlen, hrows, heq⟩
  · rw [heq]
    exact .refl _ db
  · rw [heq]
    exact hdelete
  · rw [heq]
    refine (hdelete.trans (.change _ ?_)).trans (.commit _ _)
    rw [chunksOf_append, chunksOf_of_scope_ne h (buildRows_eq_some hlen hrows).2, List.append_nil]

theorem leaves_deleteSource {scope other : Scope} (h : other ≠ scope) (db : Db β δ) :
    Commit.Leaves (chunksOf scope) db (deleteSource db other).2 :=
  (Commit.Leaves.change db (chunksOf_deleteRows_ne h _)).trans (.commit _ _)

end Rows

/-! ## One call after the other -/

section Calls

variable {μ ν β δ : Type} [DecidableEq δ] {L : Library μ ν β δ} {embeds : Bool}

/-- `ingest_text` waits for vectors when all its checks before that pass. -/
theorem beginIngest_eq_some_iff {db : Db β δ} {call : Ingest μ} {chunks : List (List Char)} :
    beginIngest L embeds db call = .ok (some chunks) ↔
      embeds = true ∧ chunkText call.text call.size call.overlap = some chunks ∧
      (∀ c ∈ db.working.find? (·.scope = call.scope), c.hash ≠ L.sha256 call.text) ∧
      count call.scope.owner call.scope.coll db.working + chunks.length ≤ maxChunks := by
  unfold beginIngest
  cases embeds with
  | false => simp
  | true =>
    cases hchunks : chunkText call.text call.size call.overlap with
    | none => simp
    | some cs =>
      cases hfind : db.working.find? (·.scope = call.scope) with
      | none => grind
      | some c => grind

variable (L embeds) in
/-- `ingest_text` ends before the DELETE and changes nothing, or everything was checked. -/
theorem ingestText_cases (db : Db β δ) (call : Ingest μ) (embed : List (List Char) → Option (List ν)) :
    (¬ Checked L embeds db call embed ∧ (ingestText L embeds db call embed).2 = db) ∨
      Checked L embeds db call embed ∧ ∃ chunks vecs, vecs.length = chunks.length ∧
        ingestText L embeds db call embed = finishIngest L db call chunks (some vecs) := by
  by_cases hchecked : Checked L embeds db call embed
  · obtain ⟨hembeds, hchanged, chunks, hchunks, hfits, hvecs⟩ := hchecked
    have hbegin : beginIngest L embeds db call = .ok (some chunks) :=
      beginIngest_eq_some_iff.mpr ⟨hembeds, hchunks, hchanged, hfits⟩
    have hembed : ∃ vecs, vecs.length = chunks.length ∧
        (if chunks = [] then some [] else embed chunks) = some vecs := by
      by_cases hnil : chunks = []
      · exact ⟨[], by simp [hnil], if_pos hnil⟩
      · obtain ⟨vecs, hembed, hlen⟩ := hvecs hnil
        exact ⟨vecs, hlen, (if_neg hnil).trans hembed⟩
    obtain ⟨vecs, hlen, hembed⟩ := hembed
    refine .inr ⟨⟨hembeds, hchanged, chunks, hchunks, hfits, hvecs⟩, chunks, vecs, hlen, ?_⟩
    unfold ingestText
    rw [hbegin, ← hembed]
  · refine .inl ⟨hchecked, ?_⟩
    unfold ingestText
    cases hbegin : beginIngest L embeds db call with
    | error e => rfl
    | ok o =>
      cases o with
      | none => rfl
      | some chunks =>
        obtain ⟨hembeds, hchunks, hchanged, hfits⟩ := beginIngest_eq_some_iff.mp hbegin
        have hshort : ∀ vs, (if chunks = [] then some [] else embed chunks) = some vs →
            vs.length ≠ chunks.length := by
          intro vs hvs hlen
          refine hchecked ⟨hembeds, hchanged, chunks, hchunks, hfits, fun hne => ?_⟩
          rw [if_neg hne] at hvs
          exact ⟨vs, hvs, hlen⟩
        rcases finishIngest_cases (L := L) db call chunks (if chunks = [] then some [] else embed chunks) with
          ⟨e, heq, -⟩ | ⟨vs, hvs, hlen, -⟩ | ⟨vs, rows, hvs, hlen, -⟩
        · exact congrArg Prod.snd heq
        · exact absurd hlen (hshort vs hvs)
        · exact absurd hlen (hshort vs hvs)

theorem leaves_perform {scope : Scope} (c : StoreCall μ ν) (h : ¬ c.On scope) (db : Db β δ) :
    Commit.Leaves (chunksOf scope) db (perform L embeds db c) := by
  cases c with
  | search => exact .refl _ db
  | delete other => exact leaves_deleteSource h db
  | ingest call embed =>
    rcases ingestText_cases L embeds db call embed with
      ⟨-, heq⟩ | ⟨-, chunks, vecs, -, heq⟩
    · rw [perform, heq]
      exact .refl _ db
    · rw [perform, heq]
      exact leaves_finishIngest h db _ _

/-- A call that raises has deleted the old chunks if everything was checked, and has changed nothing if not. -/
theorem ingestText_raises {db : Db β δ} {call : Ingest μ} {embed : List (List Char) → Option (List ν)}
    {e : StoreError} (h : (ingestText L embeds db call embed).1 = .error e) :
    (Checked L embeds db call embed ∧
        (ingestText L embeds db call embed).2 = db.change (deleteRows call.scope)) ∨
      ¬ Checked L embeds db call embed ∧ (ingestText L embeds db call embed).2 = db := by
  rcases ingestText_cases L embeds db call embed with hearly | ⟨hchecked, chunks, vecs, hlen, heq⟩
  · exact .inr hearly
  · refine .inl ⟨hchecked, ?_⟩
    rw [heq] at h ⊢
    rcases finishIngest_cases (L := L) db call chunks (some vecs) with
      ⟨e, -, hshort⟩ | ⟨vs, -, -, -, hfinish⟩ | ⟨vs, rows, -, -, -, hfinish⟩
    · exact absurd hlen (hshort vecs rfl)
    · rw [hfinish]
    · rw [hfinish] at h
      cases h

theorem exists_scope_ne (scope : Scope) : ∃ other, other ≠ scope := by
  by_cases h : scope = ⟨"", "", ""⟩
  · exact ⟨⟨"", "", "a"⟩, by simp [h]⟩
  · exact ⟨⟨"", "", ""⟩, Ne.symm h⟩

/-- **A failed re-indexing.** Whatever calls on other sources follow, the reopened database has the chunks of
the source as they were exactly when none of its changes was uncommitted already, and the call raised before
its DELETE or there was nothing to delete. -/
theorem failed_ingest_keeps_iff (db : Db β δ) (call : Ingest μ) (embed : List (List Char) → Option (List ν))
    {e : StoreError} (h : (ingestText L embeds db call embed).1 = .error e) :
    (∀ later : List (StoreCall μ ν), (∀ c ∈ later, ¬ c.On call.scope) →
        chunksOf call.scope (later.foldl (perform L embeds) (ingestText L embeds db call embed).2).reopen.working =
          chunksOf call.scope db.working) ↔
      chunksOf call.scope db.committed = chunksOf call.scope db.working ∧
        (¬ Checked L embeds db call embed ∨ chunksOf call.scope db.working = []) := by
  obtain ⟨other, hother⟩ := exists_scope_ne call.scope
  -- A deletion of another source commits what the failed call has left.
  have hcommits : ∀ s : Db β δ, chunksOf call.scope (perform L embeds s (.delete other)).committed =
      chunksOf call.scope s.working := fun s => chunksOf_deleteRows_ne hother s.working
  have hon : ¬ (StoreCall.delete other : StoreCall μ ν).On call.scope := hother
  rw [Commit.reopen_eq_iff (fun c hc s => leaves_perform c hc s) hon (hcommits _)]
  rcases ingestText_raises h with ⟨hchecked, heq⟩ | ⟨hchecked, heq⟩
  · rw [heq, Commit.change_committed, Commit.change_working, chunksOf_deleteRows, @eq_comm _ []]
    simp [hchecked]
  · rw [heq]
    simp [hchecked]

end Calls

/-! ## Calls that wait for each other -/

section Counts

variable {μ ν β δ : Type} {L : Library μ ν β δ}

theorem count_append (owner coll : String) (rows new : List (Chunk β δ)) :
    count owner coll (rows ++ new) = count owner coll rows + count owner coll new := List.countP_append

theorem count_deleteRows_le (owner coll : String) (scope : Scope) (rows : List (Chunk β δ)) :
    count owner coll (deleteRows scope rows) ≤ count owner coll rows :=
  List.Sublist.countP_le List.filter_sublist

theorem count_of_scope {scope : Scope} {rows : List (Chunk β δ)} (h : ∀ c ∈ rows, c.scope = scope) :
    count scope.owner scope.coll rows = rows.length := by
  unfold count
  rw [List.countP_eq_length]
  intro c hc
  simp [h c hc]

theorem count_of_scope_ne {scope : Scope} {owner coll : String} (hne : ¬ (scope.owner = owner ∧ scope.coll = coll))
    {rows : List (Chunk β δ)} (h : ∀ c ∈ rows, c.scope = scope) : count owner coll rows = 0 := by
  unfold count
  rw [List.countP_eq_zero]
  intro c hc
  simpa [h c hc] using hne

theorem buildRows_length {call : Ingest μ} {chunks : List (List Char)} {vecs : List ν} {rows : List (Chunk β δ)}
    (hlen : vecs.length = chunks.length) (h : buildRows L call 0 chunks vecs = some rows) :
    rows.length = chunks.length := by
  have hmap := congrArg List.length (buildRows_eq_some hlen h).1
  simpa using hmap

/-- A write keeps every collection within the limit when what it adds fits in its own. -/
theorem within_write {db : Db β δ} (h : ∀ owner coll, count owner coll db.working ≤ maxChunks) {scope : Scope}
    {rows : List (Chunk β δ)} (hscope : ∀ c ∈ rows, c.scope = scope) :
    (∀ owner coll, count owner coll (deleteRows scope db.working ++ rows) ≤ maxChunks) ↔
      count scope.owner scope.coll (deleteRows scope db.working) + rows.length ≤ maxChunks := by
  constructor
  · intro hall
    have hown := hall scope.owner scope.coll
    rwa [count_append, count_of_scope hscope] at hown
  · intro hfits owner coll
    rw [count_append]
    by_cases hsame : scope.owner = owner ∧ scope.coll = coll
    · obtain ⟨rfl, rfl⟩ := hsame
      rw [count_of_scope hscope]
      exact hfits
    · rw [count_of_scope_ne hsame hscope, Nat.add_zero]
      exact Nat.le_trans (count_deleteRows_le owner coll scope db.working) (h owner coll)

/-- A call that ends keeps every collection within the limit exactly when what it writes fits. -/
theorem within_finishIngest {db : Db β δ} (h : ∀ owner coll, count owner coll db.working ≤ maxChunks)
    (call : Ingest μ) (chunks : List (List Char)) (vecs : Option (List ν)) :
    (∀ owner coll, count owner coll (finishIngest L db call chunks vecs).2.working ≤ maxChunks) ↔
      ∀ vs, vecs = some vs → vs.length = chunks.length → buildRows L call 0 chunks vs ≠ none →
        count call.scope.owner call.scope.coll (deleteRows call.scope db.working) + chunks.length ≤ maxChunks := by
  rcases finishIngest_cases (L := L) db call chunks vecs with ⟨e, heq, hshort⟩ | ⟨vs, rfl, hlen, hrows, heq⟩ |
    ⟨vs, rows, rfl, hlen, hrows, heq⟩
  · rw [heq]
    exact iff_of_true h fun vs hvs hlen => absurd hlen (hshort vs hvs)
  · rw [heq]
    have hfewer : ∀ owner coll, count owner coll (deleteRows call.scope db.working) ≤ maxChunks := fun owner coll =>
      Nat.le_trans (count_deleteRows_le owner coll call.scope db.working) (h owner coll)
    refine iff_of_true hfewer ?_
    intro vs' hvs' _ hbuilt
    obtain rfl := Option.some.inj hvs'
    exact absurd hrows hbuilt
  · rw [heq]
    refine (within_write h (buildRows_eq_some hlen hrows).2).trans ?_
    rw [buildRows_length hlen hrows]
    simp [hlen, hrows]

end Counts

section Indexed

variable {μ ν β δ : Type} {L : Library μ ν β δ}

/-- Where the rows of the sources come from, and the calls that wait, after these steps. -/
structure Indexed (l : List (Machine.Step (Tasks μ β δ) (StoreEvent μ ν))) (s : Tasks μ β δ) : Prop where
  rows : ∀ scope, chunksOf scope s.db.working = [] ∨ ∃ e ∈ l, ∃ call : Ingest μ, e.label = .start call ∧
    call.scope = scope ∧ IndexOf (chunksOf scope s.db.working) call
  waiting : ∀ p ∈ s.waiting, (∃ e ∈ l, e.label = .start p.1) ∧
    chunkText p.1.text p.1.size p.1.overlap = some p.2

theorem Indexed.mono {l l' : List (Machine.Step (Tasks μ β δ) (StoreEvent μ ν))} {s : Tasks μ β δ} (h : Indexed l s)
    (hl : ∀ e ∈ l, e ∈ l') : Indexed l' s := by
  constructor
  · intro scope
    rcases h.rows scope with hnil | ⟨e, he, call, hrest⟩
    · exact .inl hnil
    · exact .inr ⟨e, hl e he, call, hrest⟩
  · intro p hp
    obtain ⟨⟨e, he, hlabel⟩, hchunks⟩ := h.waiting p hp
    exact ⟨⟨e, hl e he, hlabel⟩, hchunks⟩

theorem Indexed.delete {l : List (Machine.Step (Tasks μ β δ) (StoreEvent μ ν))} {s : Tasks μ β δ} (h : Indexed l s)
    (scope other : Scope) : chunksOf other (deleteRows scope s.db.working) = [] ∨ ∃ e ∈ l, ∃ call : Ingest μ,
      e.label = .start call ∧ call.scope = other ∧ IndexOf (chunksOf other (deleteRows scope s.db.working)) call := by
  by_cases hsame : scope = other
  · exact .inl (hsame ▸ chunksOf_deleteRows)
  · rw [chunksOf_deleteRows_ne hsame]
    exact h.rows other

/-- A call that was started and ends leaves the sources indexed. -/
theorem Indexed.finish {l : List (Machine.Step (Tasks μ β δ) (StoreEvent μ ν))} {s : Tasks μ β δ} (h : Indexed l s)
    {call : Ingest μ} {chunks : List (List Char)} (hstart : ∃ e ∈ l, e.label = .start call)
    (hchunks : chunkText call.text call.size call.overlap = some chunks) (vecs : Option (List ν))
    {waiting : List (Ingest μ × List (List Char))} (hwaiting : ∀ p ∈ waiting, p ∈ s.waiting) :
    Indexed l { db := (finishIngest L s.db call chunks vecs).2, waiting := waiting } := by
  refine ⟨fun scope => ?_, fun p hp => h.waiting p (hwaiting p hp)⟩
  dsimp only
  rcases finishIngest_cases (L := L) s.db call chunks vecs with ⟨e, heq, -⟩ | ⟨vs, -, -, -, heq⟩ |
    ⟨vs, rows, -, hlen, hrows, heq⟩
  · rw [heq]
    exact h.rows scope
  · rw [heq]
    exact h.delete call.scope scope
  · rw [heq]
    obtain ⟨hmap, hscope⟩ := buildRows_eq_some hlen hrows
    rw [Commit.commit_working, Commit.change_working, Commit.change_working, chunksOf_append]
    by_cases hsame : call.scope = scope
    · rw [← hsame, chunksOf_deleteRows, chunksOf_of_scope hscope, List.nil_append]
      obtain ⟨e, he, hlabel⟩ := hstart
      exact .inr ⟨e, he, call, hlabel, rfl, chunks, hchunks, hmap⟩
    · rw [chunksOf_of_scope_ne hsame hscope, List.append_nil]
      exact h.delete call.scope scope

end Indexed

section Tasks

variable {μ ν β δ : Type} [DecidableEq δ] {L : Library μ ν β δ} {embeds : Bool}

/-- One step, and the limit. -/
theorem withinLimit_step {s t : Tasks μ β δ} {e : StoreEvent μ ν} (h : WithinLimit s)
    (hstep : (tasks L embeds).step s e t) : WithinLimit t ↔ StillFits L s e := by
  change tasksStep L embeds s e = some t at hstep
  cases e with
  | start call =>
    refine iff_of_true ?_ trivial
    simp only [tasksStep] at hstep
    split at hstep
    · exact Option.some.inj hstep ▸ h
    · exact Option.some.inj hstep ▸ h
    · obtain rfl := Option.some.inj hstep
      refine (within_finishIngest (L := L) h call [] (some [])).mpr fun vs _ _ _ => ?_
      exact Nat.le_trans (count_deleteRows_le _ _ call.scope s.db.working) (h _ _)
    · exact Option.some.inj hstep ▸ h
  | delete scope =>
    obtain rfl := Option.some.inj hstep
    refine iff_of_true (fun owner coll => ?_) trivial
    exact Nat.le_trans (count_deleteRows_le owner coll scope s.db.working) (h owner coll)
  | resume i vecs =>
    obtain ⟨p, hp, rfl⟩ := Option.map_eq_some_iff.mp hstep
    refine (within_finishIngest (L := L) h p.1 p.2 vecs).trans ?_
    cases vecs with
    | none => simp [StillFits]
    | some vs => simp [StillFits, hp]

/-- The sources are indexed after every run. -/
theorem indexed_of_run {s₀ s : Tasks μ β δ} {l : List (Machine.Step (Tasks μ β δ) (StoreEvent μ ν))}
    (h : (tasks L embeds).Run s₀ l s) (hstart : (tasks L embeds).start s₀) : Indexed l s := by
  induction h with
  | nil =>
    obtain ⟨-, hworking, hwaiting⟩ := hstart
    constructor
    · intro scope
      exact .inl (by simp [hworking, chunksOf])
    · simp [hwaiting]
  | @snoc t u l e _ hstep ih =>
    have hold : Indexed (l ++ [⟨t, e, u⟩]) t := ih.mono fun x hx => List.mem_append_left _ hx
    have hlast : (⟨t, e, u⟩ : Machine.Step (Tasks μ β δ) (StoreEvent μ ν)) ∈ l ++ [⟨t, e, u⟩] := by simp
    change tasksStep L embeds t e = some u at hstep
    cases e with
    | start call =>
      simp only [tasksStep] at hstep
      split at hstep
      · exact Option.some.inj hstep ▸ hold
      · exact Option.some.inj hstep ▸ hold
      · next hbegin =>
          obtain rfl := Option.some.inj hstep
          exact hold.finish ⟨_, hlast, rfl⟩ (beginIngest_eq_some_iff.mp hbegin).2.1 _ fun p hp => hp
      · next chunks _ hbegin =>
          obtain rfl := Option.some.inj hstep
          refine ⟨hold.rows, fun p hp => ?_⟩
          rcases List.mem_append.mp hp with hp | hp
          · exact hold.waiting p hp
          · rw [List.mem_singleton.mp hp]
            exact ⟨⟨_, hlast, rfl⟩, (beginIngest_eq_some_iff.mp hbegin).2.1⟩
    | delete scope =>
      obtain rfl := Option.some.inj hstep
      exact ⟨hold.delete scope, hold.waiting⟩
    | resume i vecs =>
      obtain ⟨p, hp, rfl⟩ := Option.map_eq_some_iff.mp hstep
      obtain ⟨hstarted, hchunks⟩ := hold.waiting p (List.mem_of_getElem? hp)
      exact hold.finish hstarted hchunks vecs fun q hq => List.mem_of_mem_eraseIdx hq

/-- **Collections under concurrent calls.** In every run the chunks of each source are those of one text it
was given, and no collection is over the limit after any step exactly when each write still fits. -/
theorem ingestions_within_iff {s₀ s : Tasks μ β δ} {l : List (Machine.Step (Tasks μ β δ) (StoreEvent μ ν))}
    (h : (tasks L embeds).Run s₀ l s) (hstart : (tasks L embeds).start s₀) :
    (∀ scope, chunksOf scope s.db.working = [] ∨ ∃ e ∈ l, ∃ call : Ingest μ, e.label = .start call ∧
      call.scope = scope ∧ IndexOf (chunksOf scope s.db.working) call) ∧
    ((∀ e ∈ l, WithinLimit e.target) ↔ ∀ e ∈ l, StillFits L e.source e.label) := by
  refine ⟨(indexed_of_run h hstart).rows, ?_⟩
  refine h.steps_iff_of_invariant (I := WithinLimit) (P := fun _ _ t => WithinLimit t) (C := StillFits L) ?_ ?_ hstart
  · intro s hs owner coll
    simp [hs.2.1, count]
  · intro s e t hs ht
    exact ⟨withinLimit_step hs ht, id⟩

end Tasks

/-! ## Texts of one letter -/

section Letters

theorem splitBlank_replicate : ∀ n, splitBlank 0 (List.replicate n 'a') = [List.replicate n 'a']
  | 0 => rfl
  | n + 1 => by
      rw [List.replicate_succ, splitBlank, if_neg (by simp), splitBlank_replicate n]
      rfl

theorem strip_replicate (n : ℕ) : strip (List.replicate n 'a') = List.replicate n 'a' := by
  have hdrop : (List.replicate n 'a').dropWhile Coreai.Keystore.isSpace = List.replicate n 'a' := by
    cases n with
    | zero => rfl
    | succ n =>
      rw [List.replicate_succ, List.dropWhile_cons_of_neg]
      decide
  unfold strip Text.trim
  rw [hdrop, List.reverse_replicate, hdrop, List.reverse_replicate]

theorem splitOversize_replicate (h : 0 < 1) : ∀ (n : ℕ) (chunks : List (List Char)),
    splitOversize h ⟨chunks, []⟩ (List.replicate (n + 1) 'a') = (⟨chunks ++ List.replicate n ['a'], []⟩, ['a'])
  | 0, chunks => by
      rw [splitOversize, if_neg (by simp)]
      simp
  | n + 1, chunks => by
      rw [splitOversize, if_pos (by simp)]
      have hrest := splitOversize_replicate h n (chunks ++ [['a']])
      simpa [List.replicate_succ, Chunking.flush] using hrest

theorem chunkText_replicate (n : ℕ) :
    chunkText (List.replicate (n + 1) 'a') 1 0 = some (List.replicate (n + 1) ['a']) := by
  have hparagraphs : paragraphs (List.replicate (n + 1) 'a') = [List.replicate (n + 1) 'a'] := by
    unfold paragraphs
    rw [splitBlank_replicate, List.map_singleton, strip_replicate]
    simp [List.replicate_succ]
  unfold chunkText
  rw [dif_pos Nat.zero_lt_one, hparagraphs, List.foldl_cons, List.foldl_nil, addParagraph, splitOversize_replicate]
  simp [Chunking.flush, List.replicate_succ']

end Letters

/-! ## Where it goes wrong -/

section Failures

/-- Metadata is a text already, or cannot be serialised. -/
def plainLibrary : Library (Option (List Char)) Unit Unit (List Char) where
  dumps := id
  pack := some
  sha256 := id

/-- A text of so many letters for a source of the collection. -/
def letters (source : String) (n : ℕ) (metadata : Option (List Char)) : Ingest (Option (List Char)) where
  scope := ⟨"u", "kb", source⟩
  text := List.replicate (n + 1) 'a'
  metadata := metadata
  size := 1
  overlap := 0

/-- A database with one chunk of `a.txt`. -/
def oneChunk : Db Unit (List Char) :=
  let rows : List (Chunk Unit (List Char)) := [⟨⟨"u", "kb", "a.txt"⟩, 0, "old".toList, "{}".toList, (), "old".toList⟩]
  ⟨rows, rows⟩

theorem ingest_oneChunk_raises :
    ingestText plainLibrary true oneChunk (letters "a.txt" 0 none) (fun texts => some (texts.map fun _ => ())) =
      (.error .row, ⟨oneChunk.committed, []⟩) := by
  have hbegin : beginIngest plainLibrary true oneChunk (letters "a.txt" 0 none) = .ok (some [['a']]) :=
    beginIngest_eq_some_iff.mpr ⟨rfl, chunkText_replicate 0, by decide, by decide⟩
  unfold ingestText
  rw [hbegin]
  rfl

/-- What the condition says of that call: some later calls lose the chunk. -/
theorem failed_ingest_keeps_iff_oneChunk :
    ¬ ∀ later : List (StoreCall (Option (List Char)) Unit), (∀ c ∈ later, ¬ c.On ⟨"u", "kb", "a.txt"⟩) →
      chunksOf ⟨"u", "kb", "a.txt"⟩ (later.foldl (perform plainLibrary true)
        (ingestText plainLibrary true oneChunk (letters "a.txt" 0 none)
          (fun texts => some (texts.map fun _ => ()))).2).reopen.working =
        chunksOf ⟨"u", "kb", "a.txt"⟩ oneChunk.working := by
  have hchecked : Checked plainLibrary true oneChunk (letters "a.txt" 0 none)
      (fun texts => some (texts.map fun _ => ())) :=
    ⟨rfl, by decide, [['a']], chunkText_replicate 0, by decide, fun _ => ⟨[()], rfl, rfl⟩⟩
  intro hall
  have hiff := failed_ingest_keeps_iff oneChunk (letters "a.txt" 0 none) (fun texts => some (texts.map fun _ => ()))
    (congrArg Prod.fst ingest_oneChunk_raises)
  rcases (hiff.mp hall).2 with hnot | hnil
  · exact hnot hchecked
  · exact absurd hnil (by simp [chunksOf, oneChunk, letters])

/-- Deleting another source commits what the failed call has left undone. -/
theorem failed_ingest_loses_chunks :
    (ingestText plainLibrary true oneChunk (letters "a.txt" 0 none)
        (fun texts => some (texts.map fun _ => ()))).1 = .error .row ∧
    (chunksOf ⟨"u", "kb", "a.txt"⟩ oneChunk.working).length = 1 ∧
    chunksOf ⟨"u", "kb", "a.txt"⟩ (perform plainLibrary true
      (ingestText plainLibrary true oneChunk (letters "a.txt" 0 none)
        (fun texts => some (texts.map fun _ => ()))).2 (.delete ⟨"u", "kb", "b.txt"⟩)).reopen.working = [] := by
  rw [ingest_oneChunk_raises]
  exact ⟨rfl, by decide, rfl⟩

theorem buildRows_plainLibrary (call : Ingest (Option (List Char))) {metadata : List Char}
    (h : call.metadata = some metadata) : ∀ (i : ℕ) (chunks : List (List Char)),
    ∃ rows, buildRows plainLibrary call i chunks (List.replicate chunks.length ()) = some rows
  | _, [] => ⟨[], rfl⟩
  | i, c :: chunks => by
      obtain ⟨rows, hrows⟩ := buildRows_plainLibrary call h (i + 1) chunks
      refine ⟨⟨call.scope, i, c, metadata, (), call.text⟩ :: rows, ?_⟩
      simp only [List.length_cons, List.replicate_succ, buildRows, hrows, h]
      rfl

/-- A call that waits for its vectors, with them. -/
theorem finish_letters (db : Db Unit (List Char)) (source : String) (n : ℕ) :
    ∃ rows, rows.length = n + 1 ∧ (∀ c ∈ rows, c.scope = ⟨"u", "kb", source⟩) ∧
      (finishIngest plainLibrary db (letters source n (some [])) (List.replicate (n + 1) ['a'])
        (some (List.replicate (n + 1) ()))).2.working = deleteRows ⟨"u", "kb", source⟩ db.working ++ rows := by
  obtain ⟨rows, hrows⟩ := buildRows_plainLibrary (letters source n (some [])) rfl 0 (List.replicate (n + 1) ['a'])
  rw [List.length_replicate] at hrows
  have hlen : (List.replicate (n + 1) ()).length = (List.replicate (n + 1) ['a']).length := by simp
  refine ⟨rows, (buildRows_length hlen hrows).trans (by simp), (buildRows_eq_some hlen hrows).2, ?_⟩
  rcases finishIngest_cases (L := plainLibrary) db (letters source n (some [])) (List.replicate (n + 1) ['a'])
    (some (List.replicate (n + 1) ())) with ⟨e, -, hshort⟩ | ⟨vs, hvs, -, hnone, -⟩ | ⟨vs, rows', hvs, -, hrows', heq⟩
  · exact absurd hlen (hshort _ rfl)
  · obtain rfl := Option.some.inj hvs
    rw [hrows] at hnone
    cases hnone
  · obtain rfl := Option.some.inj hvs
    obtain rfl := Option.some.inj (hrows.symm.trans hrows')
    rw [heq]
    rfl

def startLetters (source : String) (n : ℕ) : StoreEvent (Option (List Char)) Unit := .start (letters source n (some []))

/-- The vectors of the call that waits longest. -/
def resumeLetters (n : ℕ) : StoreEvent (Option (List Char)) Unit := .resume 0 (some (List.replicate (n + 1) ()))

/-- Two sources of one collection, each checked before the other is written. -/
theorem run_letters {n : ℕ} (hn : n + 1 ≤ maxChunks) :
    ∃ l s, (tasks plainLibrary true).Run ⟨⟨[], []⟩, []⟩ l s ∧
      l.map (·.label) = [startLetters "a.txt" n, startLetters "b.txt" n, resumeLetters n, resumeLetters n] ∧
      count "u" "kb" s.db.working = (n + 1) + (n + 1) := by
  have hstart : ∀ (source : String) (waiting : List (Ingest (Option (List Char)) × List (List Char))),
      (tasks plainLibrary true).step ⟨⟨[], []⟩, waiting⟩ (startLetters source n)
        ⟨⟨[], []⟩, waiting ++ [(letters source n (some []), List.replicate (n + 1) ['a'])]⟩ := by
    intro source waiting
    have hbegin : beginIngest plainLibrary true ⟨[], []⟩ (letters source n (some [])) =
        .ok (some (List.replicate (n + 1) ['a'])) :=
      beginIngest_eq_some_iff.mpr ⟨rfl, chunkText_replicate n, by simp, by simpa [count] using hn⟩
    change tasksStep plainLibrary true ⟨⟨[], []⟩, waiting⟩ (startLetters source n) = some _
    rw [startLetters, tasksStep, hbegin, List.replicate_succ]
  have hresume : ∀ (db : Db Unit (List Char)) (p : Ingest (Option (List Char)) × List (List Char))
      (waiting : List (Ingest (Option (List Char)) × List (List Char))),
      (tasks plainLibrary true).step ⟨db, p :: waiting⟩ (resumeLetters n)
        ⟨(finishIngest plainLibrary db p.1 p.2 (some (List.replicate (n + 1) ()))).2, waiting⟩ :=
    fun _ _ _ => rfl
  obtain ⟨first, hfirst, hscope, hdb⟩ := finish_letters ⟨[], []⟩ "a.txt" n
  generalize hdb₁ : (finishIngest plainLibrary ⟨[], []⟩ (letters "a.txt" n (some [])) (List.replicate (n + 1) ['a'])
    (some (List.replicate (n + 1) ()))).2 = db₁ at hdb
  obtain ⟨second, hsecond, hscope', hdb'⟩ := finish_letters db₁ "b.txt" n
  refine ⟨_, _, .snoc (.snoc (.snoc (.snoc (.nil _) (hstart "a.txt" [])) (hstart "b.txt" _)) (hresume _ _ _))
    (hresume _ _ _), rfl, ?_⟩
  rw [hdb₁, hdb', count_append, hdb]
  have hkeep : deleteRows ⟨"u", "kb", "b.txt"⟩ (deleteRows ⟨"u", "kb", "a.txt"⟩ [] ++ first) = first := by
    unfold deleteRows
    rw [List.filter_nil, List.nil_append, List.filter_eq_self]
    intro c hc
    simp [hscope c hc]
  rw [hkeep, @count_of_scope _ _ ⟨"u", "kb", "a.txt"⟩ _ hscope, @count_of_scope _ _ ⟨"u", "kb", "b.txt"⟩ _ hscope', hfirst,
    hsecond]

/-- What the law says of two small ingestions. -/
theorem ingestions_within_iff_small : ∃ l s, (tasks plainLibrary true).Run ⟨⟨[], []⟩, []⟩ l s ∧
    count "u" "kb" s.db.working = 2 ∧ ((∀ e ∈ l, WithinLimit e.target) ↔ ∀ e ∈ l, StillFits plainLibrary e.source e.label) := by
  obtain ⟨l, s, hrun, -, hcount⟩ := @run_letters 0 (by decide)
  exact ⟨l, s, hrun, hcount, (ingestions_within_iff hrun ⟨rfl, rfl, rfl⟩).2⟩

/-- Two ingestions of 60000 chunks each, both checked when the collection was empty. -/
theorem concurrent_ingests_pass_limit : ∃ l s, (tasks plainLibrary true).Run ⟨⟨[], []⟩, []⟩ l s ∧
    l.map (·.label) =
      [startLetters "a.txt" 59999, startLetters "b.txt" 59999, resumeLetters 59999, resumeLetters 59999] ∧
    maxChunks < count "u" "kb" s.db.working := by
  obtain ⟨l, s, hrun, hlabels, hcount⟩ := @run_letters 59999 (by decide)
  exact ⟨l, s, hrun, hlabels, by rw [hcount]; decide⟩

end Failures

end Caips.Rag
