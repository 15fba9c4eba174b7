/-
Caips.Localrt.GgufTheorems — how far the header of a model file is read.

Reading ends with the metadata or with a `GGUFError`, unless the file needs more
calls inside one another than there is room for (`readMetadata_recursion_iff`). A
file of `n` bytes needs at most `n / 12 + 3` (`callDepth_le`), since an array in an
array takes 12 bytes, and there is no bound for all files (`deepFile_recursion`).
-/
import Caips.Localrt.Gguf

namespace Caips.Localrt

open Caips.Logic

variable {α β : Type} {D : Decoding}

/-! ## How many calls a file takes -/

/-- The calls of `_read`. -/
def readCalls (n : ℕ) : Measured Bytes Bytes :=
  .call fun b => (0, if b.length < n then none else some (b.take n, b.drop n))

/-- The calls of `_str`. -/
def strCalls : Measured Bytes Unit :=
  .call ((readCalls 8).bind fun n => if maxStr < leValue n then .stop else (readCalls (leValue n)).bind fun _ => .pure ())

/-- The calls of so many items. -/
def itemsCalls (item : Measured Bytes Unit) : ℕ → Measured Bytes Unit
  | 0 => .pure ()
  | n + 1 => item.bind fun _ => (itemsCalls item n).bind fun _ => .pure ()

/-- The calls of `_value`, for so many arrays in one another. -/
def valueCalls : ℕ → ℕ → Measured Bytes Unit
  | 0, _ => .call .stop
  | limit + 1, t => .call (match scalar? t with
      | some s => (readCalls s.size).bind fun _ => .pure ()
      | none =>
        if t = 8 then strCalls.bind fun _ => .pure ()
        else if t = 9 then (readCalls 4).bind fun et => (readCalls 8).bind fun n =>
          (itemsCalls (valueCalls limit (leValue et)) (leValue n)).bind fun _ => .pure ()
        else .stop)

/-- The calls of the entries. -/
def entriesCalls (limit : ℕ) : ℕ → Measured Bytes Unit
  | 0 => .pure ()
  | n + 1 => strCalls.bind fun _ => (readCalls 4).bind fun t =>
    (valueCalls limit (leValue t)).bind fun _ => entriesCalls limit n

/-- The calls of `read_metadata`. -/
def headerCalls (limit : ℕ) : Measured Bytes Unit :=
  (readCalls 4).bind fun m => if m ≠ magic then .stop else
    (readCalls 4).bind fun version => if leValue version ≠ 2 ∧ leValue version ≠ 3 then .stop else
      (readCalls 16).bind fun counts => if 100000 < leValue (slice counts 8 8) then .stop
        else entriesCalls limit (leValue (slice counts 8 8))

/-- The calls inside one another that reading a file takes: an array in an array is
at least 12 bytes. -/
def callDepth (content : Bytes) : ℕ := (headerCalls (content.length / 12 + 3) content).1

abbrev AgreesRead (limit : ℕ) (value : α → β) (x : ℕ → Read α) (m : Measured Bytes β) (b : Bytes) : Prop :=
  Agrees ReadError.recursion limit value x m b

theorem gguf_ne (e : GGUFError) : ReadError.gguf e ≠ .recursion := nofun

theorem agrees_read (limit n : ℕ) (b : Bytes) :
    AgreesRead limit (fun c => c) (fun frames => read frames n) (readCalls n) b := by
  have hbody : AgreesRead limit (fun c => c)
      (fun _ b => if b.length < n then .error (.gguf .truncated) else .ok (b.take n, b.drop n))
      (fun b => (0, if b.length < n then none else some (b.take n, b.drop n))) b := by
    by_cases hlen : b.length < n
    · constructor
      · simp
      · intro frames _ _ _
        exact ⟨_, gguf_ne _, if_pos hlen⟩
      · simp [hlen]
    · constructor
      · simp
      · simp [hlen]
      · intro frames _ _ c r h
        simp only [hlen, if_false, Option.some.injEq, Prod.mk.injEq] at h ⊢
        obtain ⟨rfl, rfl⟩ := h
        exact ⟨_, rfl, rfl⟩
  exact (hbody.call rfl fun _ => rfl).weaken (Nat.le_succ _)

theorem agrees_readStr (limit : ℕ) (b : Bytes) :
    AgreesRead limit (fun _ => ()) (readStr D) strCalls b := by
  refine ((((agrees_read limit 8 b).bind fun n r => ?_).call (y := readStr D) rfl fun _ => rfl)).weaken (Nat.le_succ _)
  split
  · exact .stop (gguf_ne _)
  · exact (agrees_read limit _ r).bind fun s r' => .pure _

theorem agrees_readItems {limit : ℕ} {item : ℕ → Read GValue} {m : Measured Bytes Unit}
    (h : ∀ b, AgreesRead limit (fun _ => ()) item m b) (n : ℕ) :
    ∀ i b, AgreesRead limit (fun _ => ()) (fun frames => readItems (item frames) n i) (itemsCalls m n) b := by
  induction n with
  | zero => exact fun _ _ => .pure _
  | succ n ih =>
    intro i b
    exact (h b).bind fun v r => (ih (i + 1) r).bind fun out r' => .pure _

theorem agrees_readValue (limit : ℕ) :
    ∀ t b, AgreesRead limit (fun _ => ()) (fun frames => readValue D frames t) (valueCalls limit t) b := by
  induction limit with
  | zero =>
    intro t b
    constructor
    · intro frames hle _
      obtain rfl := Nat.le_zero.mp hle
      rfl
    · intro frames hle hcalls
      obtain rfl := Nat.le_zero.mp hle
      exact absurd hcalls (by simp [valueCalls, Measured.call])
    · intro frames hle hcalls
      obtain rfl := Nat.le_zero.mp hle
      exact absurd hcalls (by simp [valueCalls, Measured.call])
  | succ k ih =>
    intro t b
    have hzero : readValue D 0 t b = .error .recursion := rfl
    cases hscalar : scalar? t with
    | some s =>
      have hbody : AgreesRead k (fun _ => ()) (fun frames => do
            let c ← read frames s.size
            return s.unpack c)
          ((readCalls s.size).bind fun _ => .pure ()) b := (agrees_read k s.size b).bind fun c r => .pure _
      have hcall := hbody.call (y := fun frames => readValue D frames t) hzero fun frames => by simp only [readValue, hscalar]
      simpa only [valueCalls, hscalar] using hcall
    | none =>
      by_cases hstr : t = 8
      · subst hstr
        have hbody : AgreesRead k (fun _ => ()) (fun frames => do
            let s ← readStr D frames
            return GValue.str s)
            (strCalls.bind fun _ => .pure ()) b := (agrees_readStr k b).bind fun s r => .pure _
        exact hbody.call (y := fun frames => readValue D frames 8) hzero fun _ => rfl
      · by_cases harray : t = 9
        · subst harray
          have hbody : AgreesRead k (fun _ => ()) (fun frames => do
              let et ← read frames 4
              let n ← read frames 8
              let out ← readItems (readValue D frames (leValue et)) (leValue n) 0
              return GValue.list out) ((readCalls 4).bind fun et => (readCalls 8).bind fun n =>
                (itemsCalls (valueCalls k (leValue et)) (leValue n)).bind fun _ => .pure ()) b := by
            refine (agrees_read k 4 b).bind fun et r => (agrees_read k 8 r).bind fun n r' => ?_
            exact (agrees_readItems (ih (leValue et)) (leValue n) 0 r').bind fun out r'' => .pure _
          exact hbody.call (y := fun frames => readValue D frames 9) hzero fun _ => rfl
        · have hbody : AgreesRead k (fun _ : GValue => ()) (fun _ => throw (.gguf (.unknownType t))) .stop b :=
            .stop (gguf_ne _)
          have hcall := hbody.call (y := fun frames => readValue D frames t) hzero fun frames => by
            simp only [readValue, hscalar, hstr, harray, if_false]
          simpa only [valueCalls, hscalar, hstr, harray, if_false] using hcall

theorem agrees_readEntries (limit n : ℕ) :
    ∀ m b, AgreesRead limit (fun _ => ()) (fun frames => readEntries D frames n m) (entriesCalls limit n) b := by
  induction n with
  | zero => exact fun _ _ => .pure _
  | succ n ih =>
    intro m b
    refine (agrees_readStr limit b).bind fun key r => (agrees_read limit 4 r).bind fun t r' => ?_
    exact (agrees_readValue limit (leValue t) r').bind fun v r'' => ih _ r''

theorem agrees_readHeader (limit : ℕ) (b : Bytes) :
    AgreesRead limit (fun _ => ()) (readHeader D) (headerCalls limit) b := by
  refine (agrees_read limit 4 b).bind fun m r => ?_
  split
  · exact .stop (gguf_ne _)
  · refine (agrees_read limit 4 r).bind fun version r' => ?_
    simp only
    split
    · exact .stop (gguf_ne _)
    · refine (agrees_read limit 16 r').bind fun counts r'' => ?_
      split
      · exact .stop (gguf_ne _)
      · exact agrees_readEntries limit _ _ r''

/-! ## Enough room -/

/-- A reader does not run out on these bytes, and what it reads is at least `k` of
them. -/
structure Ends (x : Read α) (k : ℕ) (b : Bytes) : Prop where
  ne : x b ≠ .error .recursion
  consumes : ∀ a r, x b = .ok (a, r) → r.length + k ≤ b.length

namespace Ends

variable {x : Read α} {f : α → Read β} {k j : ℕ} {b : Bytes}

theorem pure (a : α) : Ends (pure a) 0 b := ⟨nofun, fun _ _ h => by cases h; exact le_refl _⟩

theorem throw (e : GGUFError) : Ends (throw (.gguf e) : Read α) k b := ⟨nofun, nofun⟩

theorem bind (hx : Ends x k b) (hf : ∀ a r, r.length + k ≤ b.length → Ends (f a) j r) : Ends (x >>= f) (k + j) b := by
  have hbind : (x >>= f) b = x b >>= fun p => f p.1 p.2 := rfl
  cases hread : x b with
  | error e =>
    have herror : (x >>= f) b = .error e := by
      rw [hbind, hread]
      rfl
    constructor
    · rw [herror]
      exact fun h => hx.ne (hread.trans (congrArg Except.error (Except.error.inj h)))
    · intro a r h
      exact nomatch herror.symm.trans h
  | ok p =>
    rw [hread] at hbind
    have hle := hx.consumes p.1 p.2 hread
    have hrest := hf p.1 p.2 hle
    constructor
    · rw [hbind]
      exact hrest.ne
    · intro a r h
      rw [hbind] at h
      have := hrest.consumes a r h
      omega

theorem weaken (hx : Ends x k b) (h : j ≤ k) : Ends x j b :=
  ⟨hx.ne, fun a r hr => le_trans (by omega) (hx.consumes a r hr)⟩

end Ends

theorem ends_read (frames : ℕ) (h : 1 ≤ frames) (n : ℕ) (b : Bytes) : Ends (read frames n) n b := by
  cases frames with
  | zero => omega
  | succ k =>
    by_cases hlen : b.length < n
    · have hread : read (k + 1) n b = .error (.gguf .truncated) := if_pos hlen
      exact ⟨by rw [hread]; exact nofun, fun a r hr => by rw [hread] at hr; exact nomatch hr⟩
    · have hread : read (k + 1) n b = .ok (b.take n, b.drop n) := if_neg hlen
      refine ⟨by rw [hread]; exact nofun, fun a r hr => ?_⟩
      rw [hread] at hr
      obtain ⟨-, rfl⟩ := Prod.mk.inj (Except.ok.inj hr)
      rw [List.length_drop]
      omega

theorem ends_readStr (frames : ℕ) (h : 2 ≤ frames) (b : Bytes) : Ends (readStr D frames) 8 b := by
  cases frames with
  | zero => omega
  | succ k =>
    have hlen := ends_read k (by omega) 8 b
    refine hlen.bind (j := 0) fun n r hr => ?_
    split
    · exact .throw _
    · have hbody := (ends_read k (by omega) (leValue n) r).bind (f := fun s => return D.decode s) (j := 0)
        fun s _ _ => .pure _
      exact hbody.weaken (by omega)

theorem ends_readItems {item : Read GValue} (n : ℕ) :
    ∀ {i : ℕ} {b : Bytes}, (∀ r, r.length ≤ b.length → Ends item 0 r) → Ends (readItems item n i) 0 b := by
  induction n with
  | zero => exact fun _ => .pure _
  | succ n ih =>
    intro i b h
    refine (h b le_rfl).bind (j := 0) fun v r hr => ?_
    refine (ih fun r' hr' => h r' (by omega)).bind (j := 0) fun out _ _ => ?_
    exact .pure _

/-- A value is read with the calls its bytes can need. -/
theorem ends_readValue (frames : ℕ) :
    ∀ {t : ℕ} {b : Bytes}, b.length / 12 + 3 ≤ frames → Ends (readValue D frames t) 0 b := by
  induction frames with
  | zero => intro t b h; omega
  | succ k ih =>
    intro t b h
    unfold readValue
    cases scalar? t with
    | some s =>
      have hbody := (ends_read k (by omega) s.size b).bind (f := fun c => return s.unpack c) (j := 0)
        fun c _ _ => .pure _
      exact hbody.weaken (by omega)
    | none =>
      simp only
      split
      · have hbody := (ends_readStr (D := D) k (by omega) b).bind
          (f := fun s => return GValue.str s) (j := 0) fun s _ _ => .pure _
        exact hbody.weaken (by omega)
      · split
        · have hbody : Ends (readValue D (k + 1) 9) (4 + (8 + 0)) b := by
            refine (ends_read _ (by omega) 4 b).bind fun et r hr => (ends_read _ (by omega) 8 r).bind fun n r' hr' => ?_
            refine (ends_readItems _ fun u hu => ih ?_).bind (j := 0) fun out _ _ => .pure _
            omega
          exact hbody.weaken (by omega)
        · exact .throw _

variable {frames : ℕ}

theorem ends_readEntries (n : ℕ) :
    ∀ {m : Metadata} {b : Bytes}, b.length / 12 + 3 ≤ frames → Ends (readEntries D frames n m) 0 b := by
  induction n with
  | zero => exact fun _ => .pure _
  | succ n ih =>
    intro m b h
    have hbody : Ends (readEntries D frames (n + 1) m) (8 + (4 + (0 + 0))) b := by
      refine (ends_readStr _ (by omega) b).bind fun key r hr => (ends_read _ (by omega) 4 r).bind fun t r' hr' => ?_
      refine (ends_readValue frames ?_).bind fun v r'' hr'' => ih ?_
      · omega
      · omega
    exact hbody.weaken (by omega)

theorem ends_readHeader {b : Bytes} (h : b.length / 12 + 3 ≤ frames) : Ends (readHeader D frames) 0 b := by
  have hbody : Ends (readHeader D frames) (4 + 0) b := by
    refine (ends_read _ (by omega) 4 b).bind fun m r hr => ?_
    split
    · exact .throw _
    · have hversion := (ends_read frames (by omega) 4 r)
      refine (hversion.bind (j := 0) fun version r' hr' => ?_).weaken (by omega)
      simp only
      split
      · exact .throw _
      · have hcounts := (ends_read frames (by omega) 16 r')
        refine (hcounts.bind (j := 0) fun counts r'' hr'' => ?_).weaken (by omega)
        split
        · exact .throw _
        · exact ends_readEntries _ (by omega)
  exact hbody.weaken (by omega)

/-! ## The whole file -/

theorem readMetadata_eq_iff (frames : ℕ) (content : Bytes) :
    readMetadata D frames content = .error .recursion ↔ readHeader D frames content = .error .recursion := by
  unfold readMetadata
  cases readHeader D frames content with
  | error e => simp [Except.map]
  | ok p => simp [Except.map]

theorem readHeader_ne {content : Bytes} (h : content.length / 12 + 3 ≤ frames) :
    readHeader D frames content ≠ .error .recursion := (ends_readHeader h).ne

theorem callDepth_le (content : Bytes) : callDepth content ≤ content.length / 12 + 3 := by
  let D : Decoding := ⟨fun _ => [], fun _ => []⟩
  by_contra hlt
  have hout := (agrees_readHeader (D := D) (content.length / 12 + 3) content).runsOut _ le_rfl (not_le.mp hlt)
  exact readHeader_ne le_rfl hout

theorem readMetadata_recursion_iff (frames : ℕ) (content : Bytes) :
    readMetadata D frames content = .error .recursion ↔ frames < callDepth content := by
  rw [readMetadata_eq_iff]
  by_cases hframes : frames ≤ content.length / 12 + 3
  · exact (agrees_readHeader _ content).out_iff hframes
  · have hle := callDepth_le content
    exact iff_of_false (readHeader_ne (by omega)) (by omega)

/-! ## Arrays in arrays -/

/-- `k` arrays in one another, each of one item, but for the last one, that is
empty. -/
def chain : ℕ → Bytes
  | 0 => [9, 0, 0, 0] ++ [0, 0, 0, 0, 0, 0, 0, 0]
  | k + 1 => [9, 0, 0, 0] ++ ([1, 0, 0, 0, 0, 0, 0, 0] ++ chain k)

/-- A model file with one array, and so many arrays in it. -/
def deepFile (k : ℕ) : Bytes :=
  magic ++ ([3, 0, 0, 0] ++ ([0, 0, 0, 0, 0, 0, 0, 0, 1, 0, 0, 0, 0, 0, 0, 0] ++
    ([0, 0, 0, 0, 0, 0, 0, 0] ++ ([] ++ ([9, 0, 0, 0] ++ chain k)))))

theorem bind_apply (x : Read α) (f : α → Read β) (b : Bytes) : (x >>= f) b = x b >>= fun p => f p.1 p.2 := rfl

theorem bind_read (frames : ℕ) {n : ℕ} {a b : Bytes} (f : Bytes → Read β) (h : a.length = n) :
    (read (frames + 1) n >>= f) (a ++ b) = f a b := by
  subst h
  have hread : read (frames + 1) a.length (a ++ b) = .ok (a, b) := by simp [read]
  rw [bind_apply, hread]
  rfl

theorem readValue_chain (k : ℕ) : ∀ {frames : ℕ}, frames ≤ k → readValue D frames 9 (chain k) = .error .recursion := by
  induction k with
  | zero =>
    intro frames h
    obtain rfl : frames = 0 := by omega
    rfl
  | succ k ih =>
    intro frames h
    match frames with
    | 0 => rfl
    | 1 => rfl
    | g + 2 =>
      have hitem : readValue D (g + 1) 9 (chain k) = .error .recursion := ih (by omega)
      have hitems : readItems (readValue D (g + 1) 9) 1 0 (chain k) = .error .recursion := by
        rw [readItems, bind_apply, hitem]
        rfl
      have htype : leValue [9, 0, 0, 0] = 9 := by decide
      have hcount : leValue [1, 0, 0, 0, 0, 0, 0, 0] = 1 := by decide
      have harray : readValue D (g + 2) 9 = (do
          let et ← read (g + 1) 4
          let n ← read (g + 1) 8
          let out ← readItems (readValue D (g + 1) (leValue et)) (leValue n) 0
          return GValue.list out) := rfl
      rw [harray, chain, bind_read (n := 4) (a := [9, 0, 0, 0]) g _ rfl, htype,
        bind_read (n := 8) (a := [1, 0, 0, 0, 0, 0, 0, 0]) g _ rfl, hcount, bind_apply, hitems]
      rfl

theorem bind_readStr (g : ℕ) (f : List Char → Read β) (b : Bytes) :
    (readStr D (g + 2) >>= f) ([0, 0, 0, 0, 0, 0, 0, 0] ++ ([] ++ b)) = f (D.decode []) b := by
  have hlength : leValue [0, 0, 0, 0, 0, 0, 0, 0] = 0 := by decide
  have hlimit : ¬maxStr < 0 := by decide
  have hread : readStr D (g + 2) ([0, 0, 0, 0, 0, 0, 0, 0] ++ ([] ++ b)) = .ok (D.decode [], b) := by
    rw [readStr, bind_read (n := 8) (a := [0, 0, 0, 0, 0, 0, 0, 0]) g _ rfl, hlength]
    simp only [hlimit, if_false]
    rw [bind_read (n := 0) (a := []) g _ rfl]
    rfl
  rw [bind_apply, hread]
  rfl

theorem readHeader_single (g : ℕ) (b : Bytes) :
    readHeader D (g + 1) (magic ++ ([3, 0, 0, 0] ++ ([0, 0, 0, 0, 0, 0, 0, 0, 1, 0, 0, 0, 0, 0, 0, 0] ++ b))) =
      readEntries D (g + 1) 1 (Dict.empty.set "_version".toList (.int 3)) b := by
  have hversion : leValue [3, 0, 0, 0] = 3 := by decide
  have hn : leValue (slice [0, 0, 0, 0, 0, 0, 0, 0, 1, 0, 0, 0, 0, 0, 0, 0] 8 8) = 1 := by decide
  unfold readHeader
  rw [bind_read (n := 4) (a := magic) g _ rfl]
  simp only [ne_eq, not_true_eq_false, if_false]
  rw [bind_read (n := 4) (a := [3, 0, 0, 0]) g _ rfl, hversion]
  simp only [Nat.reduceEqDiff, not_false_eq_true, not_true_eq_false, and_false, if_false]
  rw [bind_read (n := 16) (a := [0, 0, 0, 0, 0, 0, 0, 0, 1, 0, 0, 0, 0, 0, 0, 0]) g _ rfl, hn]
  rfl

/-- **No number of calls is enough for every file.** -/
theorem deepFile_recursion (frames : ℕ) : readMetadata D frames (deepFile frames) = .error .recursion := by
  suffices h : readHeader D frames (deepFile frames) = .error .recursion by
    unfold readMetadata
    rw [h]
    rfl
  have htype : leValue [9, 0, 0, 0] = 9 := by decide
  match frames with
  | 0 => rfl
  | 1 =>
    rw [deepFile, readHeader_single 0]
    rfl
  | g + 2 =>
    rw [deepFile, readHeader_single (g + 1), readEntries, bind_readStr g,
      bind_read (n := 4) (a := [9, 0, 0, 0]) (g + 1) _ rfl, htype, bind_apply, readValue_chain (g + 2) le_rfl]
    rfl

end Caips.Localrt
