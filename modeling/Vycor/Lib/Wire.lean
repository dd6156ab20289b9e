/-
Flat byte formats: little-endian writers and readers that consume a buffer.

A writer is a function to bytes.  A reader is a state monad over what is left of the
buffer and a flag that an overrun clears.  `Reads m bs a` says that the reader `m`,
started on a buffer that begins with `bs`, consumes exactly `bs`, returns `a` and
leaves the flag set; it composes along `>>=`, so the round trip of a record is the
sequence of the round trips of its fields.

Length prefixes are 32 bits wide, and a writer casts a length down to them.  So `Reads`
only promises anything for `bs` shorter than 2^32 bytes.  A part is no longer than the
whole, and the bound is stated once, on the outermost writer.
-/
import Mathlib.Tactic.Linarith

namespace Wire

/-! ### Little-endian numbers -/

/-- The low `n` bytes of `v`, least significant first. -/
def leBytes : Nat → Nat → List UInt8
  | 0, _ => []
  | n + 1, v => UInt8.ofNat v :: leBytes n (v / 256)

/-- The number a little-endian byte list stands for. -/
def leValue : List UInt8 → Nat
  | [] => 0
  | b :: bs => b.toNat + 256 * leValue bs

@[simp] theorem leBytes_length (n v : Nat) : (leBytes n v).length = n := by
  induction n generalizing v with
  | zero => rfl
  | succ n ih => simp [leBytes, ih]

theorem leValue_leBytes (n v : Nat) : leValue (leBytes n v) = v % 256 ^ n := by
  induction n generalizing v with
  | zero => simp [leBytes, leValue, Nat.mod_one]
  | succ n ih =>
      have hlow : (UInt8.ofNat v).toNat = v % 256 := by simp
      rw [leBytes, leValue, ih, hlow, Nat.pow_succ, Nat.mul_comm (256 ^ n), Nat.mod_mul]

theorem leValue_lt (bs : List UInt8) : leValue bs < 256 ^ bs.length := by
  induction bs with
  | nil => simp [leValue]
  | cons b bs ih =>
      have hb := b.toNat_lt
      rw [leValue, List.length_cons, Nat.pow_succ]
      omega

theorem leBytes_leValue (bs : List UInt8) : leBytes bs.length (leValue bs) = bs := by
  induction bs with
  | nil => rfl
  | cons b bs ih =>
      have hb := b.toNat_lt
      have hlow : UInt8.ofNat (b.toNat + 256 * leValue bs) = b := by
        rw [← UInt8.toNat_inj]
        simp
      have hhigh : (b.toNat + 256 * leValue bs) / 256 = leValue bs := by omega
      rw [List.length_cons, leBytes, leValue, hlow, hhigh, ih]

/-! ### Readers

A reader that keeps a flag and goes on: the caller looks at the flag once, at
the end.
-/

/-- What is left of the buffer, and whether no read has overrun it. -/
structure Reader where
  rest : List UInt8
  ok : Bool := true
deriving DecidableEq, Repr

/-- A step of a reader over the bytes. -/
abbrev Read (α : Type) := StateM Reader α

variable {α β γ : Type}

/-- On a buffer that starts with `bs`, `m` consumes `bs` and returns `a`. -/
def Reads (m : Read α) (bs : List UInt8) (a : α) : Prop :=
  bs.length < 2 ^ 32 → ∀ rest, StateT.run m ⟨bs ++ rest, true⟩ = (a, ⟨rest, true⟩)

theorem Reads.pure (a : α) : Reads (Pure.pure a) [] a := fun _ _ => rfl

theorem Reads.bind {m : Read α} {f : α → Read β} {bs cs : List UInt8} {a : α} {b : β}
    (hm : Reads m bs a) (hf : Reads (f a) cs b) : Reads (m >>= f) (bs ++ cs) b := by
  intro hlen rest
  rw [List.length_append] at hlen
  have h₁ := hm (by omega) (cs ++ rest)
  have h₂ := hf (by omega) rest
  rw [List.append_assoc, StateT.run_bind, h₁]
  exact h₂

/-- The last field of a record: nothing is read after it. -/
theorem Reads.last {m : Read α} {f : α → β} {bs : List UInt8} {a : α} (hm : Reads m bs a) :
    Reads (m >>= fun a => Pure.pure (f a)) bs (f a) := by
  have h := hm.bind (f := fun a => Pure.pure (f a)) (Reads.pure (f a))
  rwa [List.append_nil] at h

theorem Reads.congr {m : Read α} {bs cs : List UInt8} {a : α} (h : Reads m bs a) (hbs : cs = bs) :
    Reads m cs a := hbs ▸ h

/-! ### Counted sequences -/

/-- Read `n` elements, stopping early once a read has overrun the buffer. -/
def readMany (one : Read α) : Nat → Read (List α)
  | 0 => return []
  | n + 1 => do
    if (← get).ok then
      let a ← one
      let as ← readMany one n
      return a :: as
    else
      return []

theorem Reads.many {one : Read α} {enc : α → List UInt8} {as : List α}
    (h : ∀ a ∈ as, Reads one (enc a) a) : Reads (readMany one as.length) (as.flatMap enc) as := by
  induction as with
  | nil => exact Reads.pure []
  | cons a as ih =>
      have htail := ih (fun x hx => h x (List.mem_cons_of_mem _ hx))
      have hboth := Reads.bind (f := fun a => readMany one as.length >>= fun as => return a :: as)
        (h a List.mem_cons_self) (htail.last (f := fun as => a :: as))
      intro hlen rest
      exact hboth hlen rest

/-- Elements that take at least one byte each are no more than the bytes they take. -/
theorem length_le_flatMap {enc : α → List UInt8} (hpos : ∀ a, 0 < (enc a).length) (as : List α) :
    as.length ≤ (as.flatMap enc).length := by
  induction as with
  | nil => simp
  | cons a as ih =>
      have := hpos a
      simp only [List.length_cons, List.flatMap_cons, List.length_append]
      omega

/-! ### Buffers of any length

What has to be short there are the single strings and counts, and whoever reads them says so.
-/

/-- On a buffer of any length that starts with `bs`, `m` consumes `bs` and returns `a`. -/
def Decodes (m : Read α) (bs : List UInt8) (a : α) : Prop :=
  ∀ rest, StateT.run m ⟨bs ++ rest, true⟩ = (a, ⟨rest, true⟩)

theorem Reads.decodes {m : Read α} {bs : List UInt8} {a : α} (h : Reads m bs a)
    (hlen : bs.length < 2 ^ 32) : Decodes m bs a := h hlen

theorem Decodes.pure (a : α) : Decodes (Pure.pure a) [] a := fun _ => rfl

theorem Decodes.bind {m : Read α} {f : α → Read β} {bs cs : List UInt8} {a : α} {b : β}
    (hm : Decodes m bs a) (hf : Decodes (f a) cs b) : Decodes (m >>= f) (bs ++ cs) b := by
  intro rest
  rw [List.append_assoc, StateT.run_bind, hm (cs ++ rest)]
  exact hf rest

theorem Decodes.last {m : Read α} {f : α → β} {bs : List UInt8} {a : α} (hm : Decodes m bs a) :
    Decodes (m >>= fun a => Pure.pure (f a)) bs (f a) := by
  have h := hm.bind (f := fun a => Pure.pure (f a)) (Decodes.pure (f a))
  rwa [List.append_nil] at h

theorem Decodes.many {one : Read α} {enc : α → List UInt8} {as : List α}
    (h : ∀ a ∈ as, Decodes one (enc a) a) : Decodes (readMany one as.length) (as.flatMap enc) as := by
  induction as with
  | nil => exact Decodes.pure []
  | cons a as ih =>
      have htail := ih (fun x hx => h x (List.mem_cons_of_mem _ hx))
      have hboth := Decodes.bind (f := fun a => readMany one as.length >>= fun as => return a :: as)
        (h a List.mem_cons_self) (htail.last (f := fun as => a :: as))
      intro rest
      exact hboth rest

end Wire
