/-
Readers that clear a flag instead of stopping.

A read that would overrun the buffer clears `ok` and returns zero, and the code after it
goes on with that zero until somebody looks at the flag.  So a decoder built this way runs
stretches of code on values nobody has checked, and what has to be shown of it is that the
flag is looked at before an unchecked value is used.

`none` is a fault: a byte taken past the end of the buffer, an index past the end of a
table, or an allocation that is refused.  `Safe A m P` says that `m` does not fault and that
`P` holds of its result, provided `A` held before; both facts are owed only where the flag is
still set.  A step that needs `A` outright stands behind `ifOk`.

Making room for the elements to come is the one step that is harmless only while the flag is
set: `count` compares a count with the bytes that are left, but hands on unchecked what it
reads after a failure.  So `Guarded m P` is what is owed of a reader that starts with its flag
set, and `Overasks` says where one that starts without it asks for too much.

`Reads m bs a` is the round trip: on a buffer that starts with `bs`, the reader `m`
consumes `bs`, returns `a` and leaves the flag set.  `Image f m m'` relates two readers of
one format: `m'` consumes what `m` does and returns `f` of its result.
-/
import Vycor.Lib.Wire

namespace Sticky

open Wire (leBytes leValue)

/-- What is left of the buffer, and whether nothing has gone wrong so far. -/
structure Cursor where
  rest : List UInt8
  ok : Bool := true
deriving DecidableEq

/-- `none` is a fault. -/
abbrev Read := StateT Cursor Option

variable {α β σ τ : Type}

/-! ### Readers

The primitives of a reader that does not throw: what goes wrong clears a flag,
and from then on the reads return zeros or nothing.
-/

/-- A byte past the buffer, an index past a table, or an allocation that is refused. -/
def fault : Read α := fun _ => none

/-- The reader has failed and stays so. -/
def fail : Read Unit := modify fun c => { c with ok := false }

/-- The next `n` bytes, which have to be there. -/
def take (n : Nat) : Read (List UInt8) := fun c =>
  if c.rest.length < n then none
  else some (c.rest.take n, { c with rest := c.rest.drop n })

/-- Whether `n` more bytes are there; if not, the flag goes. -/
def room (n : Nat) : Read Bool := fun c =>
  if c.rest.length < n then some (false, { c with ok := false }) else some (true, c)

/-- One byte, `0` once the reader has failed. -/
def u8 : Read UInt8 := do
  if ← room 1 then
    return UInt8.ofNat (leValue (← take 1))
  return 0

/-- Four bytes, least significant first, `0` once the reader has failed. -/
def u32 : Read UInt32 := do
  if ← room 4 then
    return UInt32.ofNat (leValue (← take 4))
  return 0

/-- Eight bytes, least significant first, `0` once the reader has failed. -/
def u64 : Read UInt64 := do
  if ← room 8 then
    return UInt64.ofNat (leValue (← take 8))
  return 0

/-- So many bytes, none once the reader has failed. -/
def bytes (n : UInt32) : Read (List UInt8) := do
  if ← room n.toNat then
    take n.toNat
  else
    return []

/-- A length and then that many bytes. -/
def lenStr : Read (List UInt8) := do
  bytes (← u32)

/-- One byte, true unless it is zero. -/
def bool : Read Bool := return (← u8) != 0

/-- A number of elements of at least one byte each. -/
def count : Read Nat := fun c =>
  match u32 c with
  | none => none
  | some (n, c) =>
    if c.ok && c.rest.length < n.toNat then some (0, { c with ok := false })
    else some (n.toNat, c)

/-- Make room for `n` elements.  Room for as many as there are bytes left is always given, and
for more only where `heap` has it. -/
def reserve (heap n : Nat) : Read Unit := fun c =>
  if n ≤ c.rest.length ∨ n ≤ heap then some ((), c) else none

/-- Clear the flag unless `p`. -/
def require (p : Bool) : Read Unit := if p then return else fail

/-- Go on only while the flag is set. -/
def ifOk (m : Read α) (d : α) : Read α := fun c => if c.ok then m c else some (d, c)

/-- `n` turns, as long as the flag is set. -/
def loop : Nat → (σ → Read σ) → σ → Read σ
  | 0, _, s => return s
  | n + 1, body, s => ifOk (do loop n body (← body s)) s

/-- Read `n` elements. -/
def many (one : Read α) (n : Nat) : Read (List α) :=
  loop n (fun acc => return acc ++ [← one]) []

/-- A count and then that many turns. -/
def counted (body : σ → Read σ) (s : σ) : Read σ := do
  loop (← count) body s

/-- A count and then that many elements. -/
def list (one : Read α) : Read (List α) := do
  many one (← count)

/-- A count with room for its elements, and then `f`. -/
def counting (heap : Nat) (f : Nat → Read α) : Read α := do
  let n ← count
  reserve heap n
  f n

/-- A count, room for that many elements, and then the elements. -/
def listReserved (heap : Nat) (one : Read α) : Read (List α) := counting heap (many one)

/-- The entry of a table, which has to have one there. -/
def entry (table : List α) (i : Nat) : Read α :=
  match table[i]? with
  | some a => return a
  | none => fault

/-! ### Safety

Safety is proved read by read. A guarded reader is one that is only used behind
a test of the flag; with this the tests in the code carry over to the proofs.
-/

/-- `m` does not fault on `c`; where the flag is set afterwards it was set before and `P`
holds. -/
abbrev SafeAt (c : Cursor) (m : Read α) (P : α → Prop) : Prop :=
  ∃ a c', m c = some (a, c') ∧ (c'.ok = true → c.ok = true ∧ P a)

/-- `m` is safe wherever it starts.  `A` is promised only where the flag is set. -/
def Safe (A : Prop) (m : Read α) (P : α → Prop) : Prop :=
  ∀ c : Cursor, (c.ok = true → A) → SafeAt c m P

/-- `m` is safe where it starts with the flag set. -/
def Guarded (m : Read α) (P : α → Prop) : Prop := ∀ c : Cursor, c.ok = true → SafeAt c m P

variable {A B : Prop} {P Q : α → Prop}

theorem SafeAt.bind {c : Cursor} {m : Read α} {f : α → Read β} {R : β → Prop}
    (hm : SafeAt c m P)
    (hf : ∀ a c', m c = some (a, c') → (c'.ok = true → c.ok = true ∧ P a) → SafeAt c' (f a) R) :
    SafeAt c (m >>= f) R := by
  obtain ⟨a, c', hrun, hP⟩ := hm
  obtain ⟨b, c'', hrun', hR⟩ := hf a c' hrun hP
  refine ⟨b, c'', ?_, ?_⟩
  · show (m c).bind (fun r => f r.1 r.2) = _
    rw [hrun]
    exact hrun'
  · intro hok
    obtain ⟨hok', hRb⟩ := hR hok
    exact ⟨(hP hok').1, hRb⟩

theorem SafeAt.ifOk {c : Cursor} {m : Read α} {d : α} (h : c.ok = true → SafeAt c m P) :
    SafeAt c (Sticky.ifOk m d) P := by
  by_cases hok : c.ok = true
  · obtain ⟨a, c', hrun, hP⟩ := h hok
    refine ⟨a, c', ?_, hP⟩
    rw [Sticky.ifOk, if_pos hok]
    exact hrun
  · refine ⟨d, c, ?_, fun hok' => absurd hok' hok⟩
    rw [Sticky.ifOk, if_neg hok]

theorem Safe.guarded {m : Read α} (hm : Safe True m P) : Guarded m P := fun c _ =>
  hm c fun _ => trivial

theorem Guarded.bind {m : Read α} {f : α → Read β} {R : β → Prop} (hm : Guarded m P)
    (hf : ∀ a, Safe (P a) (f a) R) : Guarded (m >>= f) R := fun c hok =>
  (hm c hok).bind fun a c' _ hP => hf a c' fun hok' => (hP hok').2

namespace Safe

theorem pure {a : α} (h : A → P a) : Safe A (Pure.pure a) P := fun c hA =>
  ⟨a, c, rfl, fun hok => ⟨hok, h (hA hok)⟩⟩

theorem bind {m : Read α} {f : α → Read β} {R : β → Prop} (hm : Safe A m P)
    (hf : ∀ a, Safe (P a) (f a) R) : Safe A (m >>= f) R := fun c hA =>
  (hm c hA).bind fun a c' _ hP => hf a c' fun hok => (hP hok).2

theorem mono {m : Read α} (hm : Safe A m P) (hA : B → A) (hP : ∀ a, P a → Q a) :
    Safe B m Q := by
  intro c hB
  obtain ⟨a, c', hrun, h⟩ := hm c fun hok => hA (hB hok)
  exact ⟨a, c', hrun, fun hok => ⟨(h hok).1, hP a (h hok).2⟩⟩

/-- What held before still holds after: it does not speak about the reader. -/
theorem frame {m : Read α} (hm : Safe A m P) : Safe A m fun a => A ∧ P a := by
  intro c hA
  obtain ⟨a, c', hrun, h⟩ := hm c hA
  exact ⟨a, c', hrun, fun hok => ⟨(h hok).1, hA (h hok).1, (h hok).2⟩⟩

theorem map {m : Read α} {f : α → β} {R : β → Prop} (hm : Safe A m P)
    (h : ∀ a, P a → R (f a)) : Safe A (m >>= fun a => Pure.pure (f a)) R :=
  hm.bind fun a => Safe.pure (h a)

/-- A reader that is safe whatever is known may be used under any assumption. -/
theorem weaken {m : Read α} (hm : Safe True m P) : Safe A m P :=
  hm.mono (fun _ => trivial) fun _ h => h

/-- One read of a sequence: what was known stays known, and its result is known too. -/
theorem step {m : Read α} {f : α → Read β} {R : β → Prop} (hm : Safe True m P)
    (hf : ∀ a, Safe (A ∧ P a) (f a) R) : Safe A (m >>= f) R := hm.weaken.frame.bind hf

/-- One read of a sequence whose result may be anything. -/
theorem skip {m : Read α} {f : α → Read β} {R : β → Prop} (hm : Safe True m P)
    (hf : ∀ a, Safe A (f a) R) : Safe A (m >>= f) R :=
  Safe.step hm fun a => (hf a).mono And.left fun _ h => h

/-- A step whose assumption has to hold outright stands behind `ifOk`. -/
theorem ifOk {m : Read α} {d : α} (h : A → Guarded m P) : Safe A (Sticky.ifOk m d) P :=
  fun c hA => SafeAt.ifOk fun hok => h (hA hok) c hok

theorem fail {P : Unit → Prop} : Safe A Sticky.fail P := fun c _ =>
  ⟨(), { c with ok := false }, rfl, fun h => by simp at h⟩

theorem require {p : Bool} : Safe A (Sticky.require p) fun _ => p = true := by
  unfold Sticky.require
  split
  · rename_i hp
    exact Safe.pure fun _ => hp
  · exact Safe.fail

theorem entry {table : List α} {i : Nat} (h : i < table.length) :
    Safe A (Sticky.entry table i) fun a => a ∈ table := by
  unfold Sticky.entry
  rw [List.getElem?_eq_getElem h]
  exact Safe.pure fun _ => List.getElem_mem h

/-- A read that first makes sure of its bytes does not fault. -/
theorem room_take {n : Nat} {f : List UInt8 → α} {d : α} :
    Safe A (do if ← room n then return f (← take n) else return d) fun _ => True := by
  intro c _
  show ∃ a c', ((room n c).bind _) = some (a, c') ∧ _
  by_cases hn : c.rest.length < n
  · refine ⟨d, { c with ok := false }, ?_, fun h => by simp at h⟩
    rw [room, if_pos hn]
    rfl
  · refine ⟨f (c.rest.take n), { c with rest := c.rest.drop n }, ?_, fun h => ⟨h, trivial⟩⟩
    rw [room, if_neg hn]
    show (take n c).bind _ = _
    rw [take, if_neg hn]
    rfl

theorem u8 : Safe A Sticky.u8 fun _ => True := room_take

theorem u32 : Safe A Sticky.u32 fun _ => True := room_take

theorem u64 : Safe A Sticky.u64 fun _ => True := room_take

theorem bytes (n : UInt32) : Safe A (Sticky.bytes n) fun _ => True := by
  have h : Sticky.bytes n = do
      if ← room n.toNat then return id (← take n.toNat) else return [] := by
    unfold Sticky.bytes
    simp
  rw [h]
  exact room_take

theorem lenStr : Safe A Sticky.lenStr fun _ => True :=
  Safe.bind u32 fun n => (Safe.bytes n).weaken

theorem bool : Safe A Sticky.bool fun _ => True := u8.map fun _ h => h

theorem count : Safe A Sticky.count fun _ => True := by
  intro c hA
  obtain ⟨n, c', hrun, h⟩ := Safe.u32 (A := A) c hA
  unfold SafeAt Sticky.count
  rw [hrun]
  by_cases hfit : (c'.ok && decide (c'.rest.length < n.toNat)) = true
  · refine ⟨0, { c' with ok := false }, if_pos hfit, fun h => by simp at h⟩
  · exact ⟨n.toNat, c', if_neg hfit, h⟩

/-- **A loop keeps what each of its turns keeps**, and its turns start with the flag set. -/
theorem loop {body : σ → Read σ} {I : σ → Prop} (h : ∀ s, I s → Guarded (body s) I) :
    ∀ (n : Nat) (s : σ), Safe (I s) (Sticky.loop n body s) I := by
  intro n
  induction n with
  | zero => exact fun s => Safe.pure fun hI => hI
  | succ n ih => exact fun s => Safe.ifOk fun hI => (h s hI).bind ih

theorem counted {body : σ → Read σ} {I : σ → Prop} (h : ∀ s, I s → Guarded (body s) I)
    (s : σ) : Safe (I s) (Sticky.counted body s) I :=
  Safe.bind Safe.count.frame fun n => (Safe.loop h n s).mono (fun hI => hI.1) fun _ hI => hI

theorem many {one : Read α} (h : Guarded one P) (n : Nat) :
    Safe A (Sticky.many one n) fun as => ∀ a ∈ as, P a := by
  refine (Safe.loop (I := fun as => ∀ a ∈ as, P a) ?_ n []).mono (fun _ => by simp)
    fun _ h => h
  intro as has
  refine h.bind fun a => Safe.pure fun ha => ?_
  intro x hx
  rcases List.mem_append.mp hx with hx | hx
  · exact has x hx
  · rw [List.mem_singleton.mp hx]
    exact ha

theorem list {one : Read α} (h : Guarded one P) :
    Safe A (Sticky.list one) fun as => ∀ a ∈ as, P a :=
  Safe.bind Safe.count fun n => Safe.many h n

end Safe

/-! ### Allocations

A count that was read with the flag set is no larger than what is left, so room for it is
given.  One that was read without the flag is whatever the next four bytes hold.
-/

/-- The number that the next four bytes hold, and zero where there are fewer. -/
def nextCount (bs : List UInt8) : Nat := if bs.length < 4 then 0 else leValue (bs.take 4)

/-- The flag is gone, and the next four bytes ask for more elements than there are bytes after
them and than `heap` has room for. -/
def Overasks (heap : Nat) (c : Cursor) : Prop :=
  c.ok = false ∧ c.rest.length - 4 < nextCount c.rest ∧ heap < nextCount c.rest

instance (heap : Nat) (c : Cursor) : Decidable (Overasks heap c) := by
  unfold Overasks
  infer_instance

theorem nextCount_lt (bs : List UInt8) : nextCount bs < 2 ^ 32 := by
  unfold nextCount
  split
  · decide
  · rename_i hlen
    have h := Wire.leValue_lt (bs.take 4)
    rwa [List.length_take, Nat.min_eq_left (Nat.le_of_not_lt hlen)] at h

/-- A number takes four bytes where there are four, and the flag where there are not. -/
theorem u32_run (c : Cursor) :
    u32 c = some (UInt32.ofNat (nextCount c.rest),
      if c.rest.length < 4 then ⟨c.rest, false⟩ else ⟨c.rest.drop 4, c.ok⟩) := by
  show (room 4 c).bind _ = _
  unfold nextCount
  by_cases hlen : c.rest.length < 4
  · rw [room, if_pos hlen, if_pos hlen, if_pos hlen]
    rfl
  · rw [room, if_neg hlen, if_neg hlen, if_neg hlen]
    show (take 4 c).bind _ = _
    rw [take, if_neg hlen]
    rfl

/-- What `count` hands on once the flag is gone: the next four bytes, where there are four. -/
theorem count_failed {c : Cursor} (hok : c.ok = false) :
    ∃ c', count c = some (nextCount c.rest, c') ∧
      (nextCount c.rest = 0 ∨ c'.rest.length = c.rest.length - 4) := by
  have hn : (UInt32.ofNat (nextCount c.rest)).toNat = nextCount c.rest :=
    UInt32.toNat_ofNat_of_lt' (nextCount_lt c.rest)
  unfold count
  rw [u32_run]
  by_cases hlen : c.rest.length < 4
  · exact ⟨⟨c.rest, false⟩, by simp [hlen, hn], Or.inl (if_pos hlen)⟩
  · exact ⟨⟨c.rest.drop 4, false⟩, by simp [hlen, hok, hn], Or.inr List.length_drop⟩

/-- What `count` hands on with the flag set is no more than what is left. -/
theorem count_le {c : Cursor} (hok : c.ok = true) :
    ∃ n c', count c = some (n, c') ∧ n ≤ c'.rest.length := by
  have hn : (UInt32.ofNat (nextCount c.rest)).toNat = nextCount c.rest :=
    UInt32.toNat_ofNat_of_lt' (nextCount_lt c.rest)
  unfold count
  rw [u32_run]
  by_cases hlen : c.rest.length < 4
  · have hzero : nextCount c.rest = 0 := if_pos hlen
    exact ⟨0, ⟨c.rest, false⟩, by simp [hlen, hzero], Nat.zero_le _⟩
  · rw [if_neg hlen, hok]
    dsimp only
    rw [hn]
    by_cases hfit : (c.rest.drop 4).length < nextCount c.rest
    · exact ⟨0, _, if_pos (by simpa using hfit), Nat.zero_le _⟩
    · exact ⟨_, _, if_neg (by simpa using hfit), Nat.le_of_not_lt hfit⟩

variable {heap : Nat} {f : Nat → Read α} {c : Cursor}

/-- A count that is read without the flag and asks for too much is refused its room. -/
theorem counting_overasks (h : Overasks heap c) : counting heap f c = none := by
  obtain ⟨hok, hleft, hheap⟩ := h
  obtain ⟨c', hcount, hzero | hrest⟩ := count_failed hok
  · omega
  · have hrefused : reserve heap (nextCount c.rest) c' = none := if_neg (by omega)
    show (Sticky.count c).bind _ = _
    rw [hcount]
    show (reserve heap (nextCount c.rest) c').bind _ = _
    rw [hrefused]
    rfl

/-- **Where it does not ask for too much, it is as safe as what follows.** -/
theorem SafeAt.counting (h : ¬ Overasks heap c) (hA : c.ok = true → A)
    (hf : ∀ n, Safe A (f n) P) : SafeAt c (counting heap f) P := by
  refine SafeAt.bind (Safe.count c hA) fun n c' hcount hsticky => ?_
  have hgranted : n ≤ c'.rest.length ∨ n ≤ heap := by
    cases hok : c.ok with
    | false =>
        obtain ⟨c'', hcount', hleft⟩ := count_failed hok
        rw [hcount] at hcount'
        obtain ⟨rfl, rfl⟩ := Prod.mk.inj (Option.some.inj hcount')
        have hnot : ¬ (c.rest.length - 4 < nextCount c.rest ∧ heap < nextCount c.rest) :=
          fun hc => h ⟨hok, hc⟩
        omega
    | true =>
        obtain ⟨n', c'', hcount', hle⟩ := count_le hok
        rw [hcount] at hcount'
        obtain ⟨rfl, rfl⟩ := Prod.mk.inj (Option.some.inj hcount')
        exact Or.inl hle
  have hroom : reserve heap n c' = some ((), c') := if_pos hgranted
  obtain ⟨a, c'', hrun, hP⟩ := hf n c' fun hok => hA (hsticky hok).1
  refine ⟨a, c'', ?_, hP⟩
  show (reserve heap n c').bind _ = _
  rw [hroom]
  exact hrun

theorem Guarded.counting (hf : ∀ n, Safe True (f n) P) : Guarded (counting heap f) P :=
  fun _ hok => SafeAt.counting (fun h => by simp [h.1] at hok) (fun _ => trivial) hf

theorem Guarded.listReserved {one : Read α} (h : Guarded one P) :
    Guarded (Sticky.listReserved heap one) fun as => ∀ a ∈ as, P a :=
  Guarded.counting fun n => Safe.many h n

/-- A loop that faults does so in one of its turns, which starts with the flag set. -/
theorem loop_none {body : σ → Read σ} {n : Nat} :
    ∀ {s : σ} {c : Cursor}, loop n body s c = none ↔ ∃ k < n, ∃ s' c',
      loop k body s c = some (s', c') ∧ c'.ok = true ∧ body s' c' = none := by
  induction n with
  | zero =>
      intro s c
      refine ⟨fun h => ?_, fun ⟨k, hk, _⟩ => absurd hk (Nat.not_lt_zero k)⟩
      cases h
  | succ n ih =>
      intro s c
      have hturn : loop (n + 1) body s c
          = if c.ok then (body s c).bind fun r => loop n body r.1 r.2 else some (s, c) := rfl
      constructor
      · intro h
        rw [hturn] at h
        split at h
        · rename_i hok
          cases hbody : body s c with
          | none => exact ⟨0, Nat.succ_pos n, s, c, rfl, hok, hbody⟩
          | some r =>
              rw [hbody] at h
              obtain ⟨k, hk, s', c', hrun, hrest⟩ := ih.mp h
              refine ⟨k + 1, Nat.succ_lt_succ hk, s', c', ?_, hrest⟩
              show (if c.ok then (body s c).bind fun r => loop k body r.1 r.2 else _) = _
              rw [if_pos hok, hbody]
              exact hrun
        · cases h
      · rintro ⟨k, hk, s', c', hrun, hok', hnone⟩
        cases k with
        | zero =>
            obtain ⟨rfl, rfl⟩ := Prod.mk.inj (Option.some.inj hrun)
            rw [hturn, if_pos hok', hnone]
            rfl
        | succ k =>
            have hrun' : (if c.ok then (body s c).bind fun r => loop k body r.1 r.2
                else some (s, c)) = some (s', c') := hrun
            rw [hturn]
            split at hrun'
            · rename_i hok
              rw [if_pos hok]
              cases hbody : body s c with
              | none => rfl
              | some r =>
                  rw [hbody] at hrun'
                  exact ih.mpr ⟨k, Nat.lt_of_succ_lt_succ hk, s', c', hrun', hok', hnone⟩
            · rename_i hok
              obtain ⟨rfl, rfl⟩ := Prod.mk.inj (Option.some.inj hrun')
              exact absurd hok' hok

/-! ### Round trips

What the writer wrote, read back. A reader is specified by the bytes it consumes
and what it returns, so the specifications compose in the order of the fields.
-/

/-- On a buffer that starts with `bs`, `m` consumes `bs` and returns `a`. -/
def Reads (m : Read α) (bs : List UInt8) (a : α) : Prop :=
  ∀ rest, m ⟨bs ++ rest, true⟩ = some (a, ⟨rest, true⟩)

/-- The bytes of a counted sequence. -/
def putList (put : α → List UInt8) (l : List α) : List UInt8 :=
  leBytes 4 l.length ++ l.flatMap put

/-- A length in four bytes, then the bytes. -/
def putLenStr (s : List UInt8) : List UInt8 := leBytes 4 s.length ++ s

namespace Reads

theorem pure (a : α) : Reads (Pure.pure a) [] a := fun _ => rfl

theorem bind {m : Read α} {f : α → Read β} {bs cs : List UInt8} {a : α} {b : β}
    (hm : Reads m bs a) (hf : Reads (f a) cs b) : Reads (m >>= f) (bs ++ cs) b := by
  intro rest
  show (m _).bind (fun r => f r.1 r.2) = _
  rw [List.append_assoc, hm]
  exact hf rest

/-- The last field of a record: nothing is read after it. -/
theorem last {m : Read α} {f : α → β} {bs : List UInt8} {a : α} (hm : Reads m bs a) :
    Reads (m >>= fun a => Pure.pure (f a)) bs (f a) := by
  have h := hm.bind (f := fun a => Pure.pure (f a)) (Reads.pure (f a))
  rwa [List.append_nil] at h

theorem congr {m : Read α} {bs cs : List UInt8} {a : α} (h : Reads m bs a) (hbs : cs = bs) :
    Reads m cs a := hbs ▸ h

theorem ifOk {m : Read α} {d : α} {bs : List UInt8} {a : α} (h : Reads m bs a) :
    Reads (Sticky.ifOk m d) bs a := h

/-- A step that consumes nothing. -/
theorem silent {m : Read α} {f : α → Read β} {bs : List UInt8} {a : α} {b : β}
    (hm : Reads m [] a) (hf : Reads (f a) bs b) : Reads (m >>= f) bs b := hm.bind hf

theorem require {p : Bool} (h : p = true) {m : Read α} {bs : List UInt8} {a : α}
    (hm : Reads m bs a) : Reads (do Sticky.require p; m) bs a := by
  unfold Sticky.require
  rw [if_pos h]
  exact hm

theorem entry {table : List α} {i : Nat} {a : α} (h : table[i]? = some a) :
    Reads (Sticky.entry table i) [] a := by
  unfold Sticky.entry
  rw [h]
  exact Reads.pure a

theorem take (bs : List UInt8) : Reads (Sticky.take bs.length) bs bs := by
  intro rest
  rw [Sticky.take, if_neg (by simp), List.take_left, List.drop_left]

private theorem fixed {n : Nat} (f : List UInt8 → α) (d : α) (bs : List UInt8)
    (hlen : bs.length = n) :
    Reads (do if ← room n then return f (← Sticky.take n) else return d) bs (f bs) := by
  intro rest
  show (room n _).bind _ = _
  rw [room, if_neg (by simp [hlen])]
  show (Sticky.take n _).bind _ = _
  subst hlen
  rw [Reads.take bs rest]
  rfl

theorem u8 (v : UInt8) : Reads Sticky.u8 [v] v := by
  have h := fixed (n := 1) (fun bs => UInt8.ofNat (leValue bs)) 0 [v] rfl
  have hv : UInt8.ofNat (leValue [v]) = v := by simp [leValue]
  rw [hv] at h
  exact h

theorem u32 (v : UInt32) : Reads Sticky.u32 (leBytes 4 v.toNat) v := by
  have h := fixed (n := 4) (fun bs => UInt32.ofNat (leValue bs)) 0 (leBytes 4 v.toNat) (by simp)
  have hv : UInt32.ofNat (leValue (leBytes 4 v.toNat)) = v := by
    have hlt : v.toNat < 256 ^ 4 := v.toNat_lt
    rw [Wire.leValue_leBytes, Nat.mod_eq_of_lt hlt, UInt32.ofNat_toNat]
  rw [hv] at h
  exact h

theorem u64 (v : UInt64) : Reads Sticky.u64 (leBytes 8 v.toNat) v := by
  have h := fixed (n := 8) (fun bs => UInt64.ofNat (leValue bs)) 0 (leBytes 8 v.toNat) (by simp)
  have hv : UInt64.ofNat (leValue (leBytes 8 v.toNat)) = v := by
    have hlt : v.toNat < 256 ^ 8 := v.toNat_lt
    rw [Wire.leValue_leBytes, Nat.mod_eq_of_lt hlt, UInt64.ofNat_toNat]
  rw [hv] at h
  exact h

theorem u32_ofNat {n : Nat} (h : n < 2 ^ 32) : Reads Sticky.u32 (leBytes 4 n) (UInt32.ofNat n) := by
  have hr := Reads.u32 (UInt32.ofNat n)
  rwa [UInt32.toNat_ofNat_of_lt' h] at hr

theorem bool (b : Bool) : Reads Sticky.bool [if b then 1 else 0] b := by
  have h := (Reads.u8 (if b then 1 else 0)).last (f := fun v => v != 0)
  have hb : ((if b then (1 : UInt8) else 0) != 0) = b := by cases b <;> rfl
  rwa [hb] at h

theorem bytes {s : List UInt8} {n : UInt32} (hn : n.toNat = s.length) :
    Reads (Sticky.bytes n) s s := by
  intro rest
  show (room n.toNat _).bind _ = _
  rw [room, if_neg (by simp [hn]), hn]
  exact Reads.take s rest

theorem lenStr {s : List UInt8} (h : s.length < 2 ^ 32) :
    Reads Sticky.lenStr (putLenStr s) s :=
  (Reads.u32_ofNat h).bind (Reads.bytes (UInt32.toNat_ofNat_of_lt' h))

/-- One turn of a loop. -/
theorem turn {body : σ → Read σ} {s s' s'' : σ} {n : Nat} {bs cs : List UInt8}
    (hbody : Reads (body s) bs s') (hrest : Reads (Sticky.loop n body s') cs s'') :
    Reads (Sticky.loop (n + 1) body s) (bs ++ cs) s'' := (hbody.bind hrest).ifOk

/-- A loop over written items folds them, as long as each turn reads one back. -/
theorem loop {put : τ → List UInt8} {body : σ → Read σ} {step : σ → τ → σ} (I : σ → Prop)
    (l : List τ)
    (h : ∀ x ∈ l, ∀ s, I s → Reads (body s) (put x) (step s x) ∧ I (step s x)) :
    ∀ s, I s → Reads (Sticky.loop l.length body s) (l.flatMap put) (l.foldl step s)
      ∧ I (l.foldl step s) := by
  induction l with
  | nil => exact fun s hI => ⟨Reads.pure s, hI⟩
  | cons x rest ih =>
      intro s hI
      obtain ⟨hx, hI'⟩ := h x List.mem_cons_self s hI
      obtain ⟨hrest, hI''⟩ := ih (fun y hy => h y (List.mem_cons_of_mem _ hy)) _ hI'
      exact ⟨hx.turn hrest, hI''⟩

theorem length_le_flatMap {put : τ → List UInt8} {l : List τ}
    (hpos : ∀ x ∈ l, 0 < (put x).length) : l.length ≤ (l.flatMap put).length := by
  induction l with
  | nil => simp
  | cons x rest ih =>
      have hx := hpos x List.mem_cons_self
      have hrest := ih fun y hy => hpos y (List.mem_cons_of_mem _ hy)
      simp only [List.length_cons, List.flatMap_cons, List.length_append]
      omega

private theorem count {n : Nat} (h : n < 2 ^ 32) {rest : List UInt8} (hn : n ≤ rest.length) :
    Sticky.count ⟨leBytes 4 n ++ rest, true⟩ = some (n, ⟨rest, true⟩) := by
  unfold Sticky.count
  rw [Reads.u32_ofNat h rest]
  simp only [UInt32.toNat_ofNat_of_lt' h]
  rw [if_neg (by simp; omega)]

/-- A count and what is read of its elements. -/
theorem count_bind {put : τ → List UInt8} {f : Nat → Read σ} {l : List τ} {s : σ}
    (hlen : l.length < 2 ^ 32) (hpos : ∀ x ∈ l, 0 < (put x).length)
    (h : Reads (f l.length) (l.flatMap put) s) : Reads (Sticky.count >>= f) (putList put l) s := by
  intro rest
  show (Sticky.count _).bind _ = _
  rw [putList, List.append_assoc, Reads.count hlen]
  · exact h rest
  · have := length_le_flatMap hpos
    rw [List.length_append]
    omega

/-- Room for the elements that were written is always given. -/
theorem counting {put : τ → List UInt8} {f : Nat → Read σ} {heap : Nat} {l : List τ} {s : σ}
    (hlen : l.length < 2 ^ 32) (hpos : ∀ x ∈ l, 0 < (put x).length)
    (h : Reads (f l.length) (l.flatMap put) s) :
    Reads (Sticky.counting heap f) (putList put l) s := by
  intro rest
  have hle : l.length ≤ (l.flatMap put ++ rest).length := by
    have := length_le_flatMap hpos
    rw [List.length_append]
    omega
  show (Sticky.count _).bind _ = _
  rw [putList, List.append_assoc, Reads.count hlen hle]
  show (reserve heap l.length _).bind _ = _
  rw [reserve, if_pos (Or.inl hle)]
  exact h rest

/-- **A counted loop reads back what `putList` wrote.** -/
theorem counted {put : τ → List UInt8} {body : σ → Read σ} {step : σ → τ → σ} (I : σ → Prop)
    {l : List τ} (hlen : l.length < 2 ^ 32) (hpos : ∀ x ∈ l, 0 < (put x).length)
    (h : ∀ x ∈ l, ∀ s, I s → Reads (body s) (put x) (step s x) ∧ I (step s x)) {s : σ}
    (hs : I s) :
    Reads (Sticky.counted body s) (putList put l) (l.foldl step s) ∧ I (l.foldl step s) := by
  obtain ⟨hloop, hI⟩ := Reads.loop I l h s hs
  exact ⟨count_bind hlen hpos hloop, hI⟩

/-- So does one that first makes room. -/
theorem countedReserved {put : τ → List UInt8} {body : σ → Read σ} {step : σ → τ → σ}
    {heap : Nat} (I : σ → Prop) {l : List τ} (hlen : l.length < 2 ^ 32)
    (hpos : ∀ x ∈ l, 0 < (put x).length)
    (h : ∀ x ∈ l, ∀ s, I s → Reads (body s) (put x) (step s x) ∧ I (step s x)) {s : σ}
    (hs : I s) :
    Reads (Sticky.counting heap fun n => Sticky.loop n body s) (putList put l) (l.foldl step s)
      ∧ I (l.foldl step s) := by
  obtain ⟨hloop, hI⟩ := Reads.loop I l h s hs
  exact ⟨counting hlen hpos hloop, hI⟩

private theorem foldl_snoc (l : List α) :
    ∀ acc : List α, l.foldl (fun acc x => acc ++ [x]) acc = acc ++ l := by
  induction l with
  | nil => simp
  | cons x rest ih =>
      intro acc
      rw [List.foldl_cons, ih, List.append_assoc, List.singleton_append]

/-- As many elements as were written. -/
theorem many {put : α → List UInt8} {one : Read α} {l : List α}
    (h : ∀ x ∈ l, Reads one (put x) x) : Reads (Sticky.many one l.length) (l.flatMap put) l := by
  have hturn : ∀ x ∈ l, ∀ acc : List α, True →
      Reads (do return acc ++ [← one]) (put x) (acc ++ [x]) ∧ True := by
    intro x hx acc _
    exact ⟨(h x hx).last, trivial⟩
  have hr := (Reads.loop (fun _ => True) l hturn [] trivial).1
  rwa [foldl_snoc, List.nil_append] at hr

theorem list {put : α → List UInt8} {one : Read α} {l : List α} (hlen : l.length < 2 ^ 32)
    (hpos : ∀ x ∈ l, 0 < (put x).length) (h : ∀ x ∈ l, Reads one (put x) x) :
    Reads (Sticky.list one) (putList put l) l :=
  count_bind hlen hpos (Reads.many h)

theorem listReserved {put : α → List UInt8} {one : Read α} {heap : Nat} {l : List α}
    (hlen : l.length < 2 ^ 32) (hpos : ∀ x ∈ l, 0 < (put x).length)
    (h : ∀ x ∈ l, Reads one (put x) x) :
    Reads (Sticky.listReserved heap one) (putList put l) l :=
  counting hlen hpos (Reads.many h)

end Reads

/-! ### Two readers of one format

Where a reader ends with its flag set, nothing has gone wrong on the way, so what it reads and
asks for is what the format warrants.  A reader that only leaves some of it out then gets
through as well, and so does the same reader with other memory.
-/

/-- Where `m` ends with the flag set, it has begun with it, and `m'` reads what `m` reads and
returns the image of its result. -/
def Image (f : α → β) (m : Read α) (m' : Read β) : Prop :=
  ∀ c a c', m c = some (a, c') → c'.ok = true → c.ok = true ∧ m' c = some (f a, c')

theorem Safe.image {P : α → Prop} {m : Read α} (h : Safe True m P) : Image id m m := by
  intro c a c' hm hok
  obtain ⟨b, c'', hm', hP⟩ := h c fun _ => trivial
  rw [hm] at hm'
  obtain ⟨rfl, rfl⟩ := Prod.mk.inj (Option.some.inj hm')
  exact ⟨(hP hok).1, hm⟩

namespace Image

variable {f : α → β}

/-- A reader that has an image never gets its flag back. -/
theorem self {m : Read α} {m' : Read β} (h : Image f m m') : Image id m m :=
  fun c a c' hrun hok => ⟨(h c a c' hrun hok).1, hrun⟩

theorem pure (f : α → β) (a : α) : Image f (Pure.pure a) (Pure.pure (f a)) := by
  intro c b c' h hok
  obtain ⟨rfl, rfl⟩ := Prod.mk.inj (Option.some.inj h)
  exact ⟨hok, rfl⟩

theorem bind {g : σ → τ} {m : Read α} {m' : Read β} {k : α → Read σ} {k' : β → Read τ}
    (h : Image f m m') (hk : ∀ a, Image g (k a) (k' (f a))) : Image g (m >>= k) (m' >>= k') := by
  intro c s c' hrun hok
  have hbind : (m c).bind (fun r => k r.1 r.2) = some (s, c') := hrun
  obtain ⟨⟨a, c''⟩, hm, hrest⟩ := Option.bind_eq_some_iff.mp hbind
  obtain ⟨hok'', hrest'⟩ := hk a c'' s c' hrest hok
  obtain ⟨hok', hm'⟩ := h c a c'' hm hok''
  refine ⟨hok', ?_⟩
  show (m' c).bind (fun r => k' r.1 r.2) = _
  rw [hm']
  exact hrest'

/-- Both begin with the same read. -/
theorem step {m : Read σ} {k : σ → Read α} {k' : σ → Read β} (hm : Image id m m)
    (hk : ∀ a, Image f (k a) (k' a)) : Image f (m >>= k) (m >>= k') := bind hm hk

theorem entry (table : List α) (i : Nat) :
    Image id (Sticky.entry table i) (Sticky.entry table i) := by
  unfold Sticky.entry
  split
  · exact pure id _
  · intro c a c' hrun _
    cases hrun

theorem ifOk {m : Read α} {m' : Read β} (h : Image f m m') (d : α) :
    Image f (Sticky.ifOk m d) (Sticky.ifOk m' (f d)) := by
  intro c a c' hrun hok
  unfold Sticky.ifOk at hrun ⊢
  split at hrun
  · rename_i hset
    rw [if_pos hset]
    exact h c a c' hrun hok
  · rename_i hset
    obtain ⟨-, rfl⟩ := Prod.mk.inj (Option.some.inj hrun)
    exact absurd hok hset

/-- The second makes no room. -/
theorem reserving {m : Read α} {m' : Read β} {heap n : Nat} (h : Image f m m') :
    Image f (do reserve heap n; m) m' := by
  intro c a c' hrun hok
  have hbind : (reserve heap n c).bind (fun r => m r.2) = some (a, c') := hrun
  unfold reserve at hbind
  split at hbind
  · exact h c a c' hbind hok
  · cases hbind

/-- Where the flag stays set, the room is given whatever the memory. -/
theorem counting {heap heap' : Nat} {k : Nat → Read α} {k' : Nat → Read β}
    (hk : ∀ n, Image f (k n) (k' n)) :
    Image f (Sticky.counting heap k) (Sticky.counting heap' k') := by
  intro c a c' hrun hok
  have hbind : (Sticky.count c).bind
      (fun r => (reserve heap r.1 r.2).bind fun u => k r.1 u.2) = some (a, c') := hrun
  obtain ⟨⟨n, c₁⟩, hcount, hrest⟩ := Option.bind_eq_some_iff.mp hbind
  obtain ⟨⟨u, c₂⟩, hroom, hrest⟩ := Option.bind_eq_some_iff.mp hrest
  have hsame : c₂ = c₁ := by
    dsimp only [reserve] at hroom
    split at hroom
    · exact (Prod.mk.inj (Option.some.inj hroom)).2.symm
    · cases hroom
  subst hsame
  obtain ⟨hok₂, hrest'⟩ := hk n c₂ a c' hrest hok
  obtain ⟨n', c₁', hcount', hP⟩ := Safe.count (A := True) c fun _ => trivial
  rw [hcount] at hcount'
  obtain ⟨rfl, rfl⟩ := Prod.mk.inj (Option.some.inj hcount')
  have hset := (hP hok₂).1
  obtain ⟨n', c₁', hcount', hle⟩ := count_le hset
  rw [hcount] at hcount'
  obtain ⟨rfl, rfl⟩ := Prod.mk.inj (Option.some.inj hcount')
  have hgiven : reserve heap' n c₂ = some ((), c₂) := if_pos (Or.inl hle)
  refine ⟨hset, ?_⟩
  show (Sticky.count c).bind (fun r => (reserve heap' r.1 r.2).bind fun u => k' r.1 u.2) = _
  rw [hcount]
  show (reserve heap' n c₂).bind (fun u => k' n u.2) = _
  rw [hgiven]
  exact hrest'

theorem loop {body : α → Read α} {body' : β → Read β} (h : ∀ s, Image f (body s) (body' (f s))) :
    ∀ n s, Image f (Sticky.loop n body s) (Sticky.loop n body' (f s)) := by
  intro n
  induction n with
  | zero => exact fun s => pure f s
  | succ n ih => exact fun s => ifOk (bind (h s) ih) s

theorem counted {body : α → Read α} {body' : β → Read β}
    (h : ∀ s, Image f (body s) (body' (f s))) (s : α) :
    Image f (Sticky.counted body s) (Sticky.counted body' (f s)) :=
  step Safe.count.image fun n => loop h n s

theorem many {one one' : Read α} (h : Image id one one') (n : Nat) :
    Image id (Sticky.many one n) (Sticky.many one' n) :=
  loop (f := id) (fun s => bind h fun a => pure id (s ++ [a])) n []

theorem list {one one' : Read α} (h : Image id one one') :
    Image id (Sticky.list one) (Sticky.list one') := step Safe.count.image fun n => many h n

theorem listReserved {one one' : Read α} {heap heap' : Nat} (h : Image id one one') :
    Image id (Sticky.listReserved heap one) (Sticky.listReserved heap' one') :=
  counting fun n => many h n

end Image

end Sticky
