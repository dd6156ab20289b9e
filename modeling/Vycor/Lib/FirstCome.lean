/-
A walk that takes ways off a stack, and which ways it takes.

A way is a list of places, the newest first, and leads on to further places.  A turn takes the
way on top of the stack and puts on it, for each place the way leads to that has not been met
before, the way to that place.  So the walk comes to a place by one way only.

Which way that is can be said without the walk.  Ways are ordered: one comes before those that
continue it, and of two that part the one comes first whose place is listed last where they
part, since the stack gives back last what was put on it first.  A place is then come to by the
first way that leads to it, among ways whose own places were come to like that.  `Served` says
this of a set of ways, and `firstWay_iff` that a walk which ends takes the ways of one such set
and of no other.
-/
import Mathlib.Data.List.Infix
import Mathlib.Logic.Function.Iterate
import Mathlib.Order.Basic

namespace FirstCome

variable {α : Type*} [DecidableEq α]

/-! ### The order of ways

A walk with a stack goes on from the place it came to last, and of the places it
goes on to it takes the one listed last first. So of two ways the one that
continues the other is later, and where two ways part the one to the later place
is earlier.
-/

section Order

variable (more : List α → List α)

/-- The ways part, and where they do the first one takes the place that is listed later. -/
def Parts (a b : List α) : Prop :=
  ∃ w x y, x :: w <:+ a ∧ y :: w <:+ b ∧ (more w).idxOf y < (more w).idxOf x

/-- The first way is continued by the other, or parts from it to a place that is listed later. -/
def Before (a b : List α) : Prop := (a <:+ b ∧ a ≠ b) ∨ Parts more a b

end Order

variable {more : List α → List α} {start : α}

/-- Ways that part are not continued by one and the same. -/
theorem Parts.not_common {a b l : List α} (h : Parts more a b) (ha : a <:+ l) (hb : b <:+ l) :
    False := by
  obtain ⟨w, x, y, hx, hy, hlt⟩ := h
  have hsame : x :: w <:+ y :: w :=
    List.suffix_of_suffix_length_le (hx.trans ha) (hy.trans hb) (Nat.le_refl _)
  have heq : x :: w = y :: w := hsame.eq_of_length rfl
  rw [(List.cons.inj heq).1] at hlt
  exact lt_irrefl _ hlt

theorem Parts.extend {a b a' b' : List α} (h : Parts more a b) (ha : a <:+ a') (hb : b <:+ b') :
    Parts more a' b' := by
  obtain ⟨w, x, y, hx, hy, hlt⟩ := h
  exact ⟨w, x, y, hx.trans ha, hy.trans hb, hlt⟩

theorem Parts.asymm {a b : List α} (h : Parts more a b) (h' : Parts more b a) : False := by
  -- The two forks lie on both ways, so the shorter one would be no fork; and one of the same
  -- length is the same fork, seen from the other side.
  obtain ⟨w, x, y, hx, hy, hlt⟩ := h
  obtain ⟨w', y', x', hy', hx', hlt'⟩ := h'
  rcases Nat.lt_trichotomy w.length w'.length with hlen | hlen | hlen
  · have hxw : x :: w <:+ w' :=
      List.suffix_of_suffix_length_le hx ((List.suffix_cons x' w').trans hx') hlen
    have hyw : y :: w <:+ w' :=
      List.suffix_of_suffix_length_le hy ((List.suffix_cons y' w').trans hy') hlen
    exact Parts.not_common ⟨w, x, y, List.suffix_rfl, List.suffix_rfl, hlt⟩ hxw hyw
  · have hxx : x :: w = x' :: w' :=
      (List.suffix_of_suffix_length_le hx hx' (by simp [hlen])).eq_of_length (by simp [hlen])
    have hyy : y :: w = y' :: w' :=
      (List.suffix_of_suffix_length_le hy hy' (by simp [hlen])).eq_of_length (by simp [hlen])
    obtain ⟨rfl, rfl⟩ := List.cons.inj hxx
    obtain ⟨rfl, -⟩ := List.cons.inj hyy
    exact lt_asymm hlt hlt'
  · have hxw : x' :: w' <:+ w :=
      List.suffix_of_suffix_length_le hx' ((List.suffix_cons x w).trans hx) hlen
    have hyw : y' :: w' <:+ w :=
      List.suffix_of_suffix_length_le hy' ((List.suffix_cons y w).trans hy) hlen
    exact Parts.not_common ⟨w', y', x', List.suffix_rfl, List.suffix_rfl, hlt'⟩ hyw hxw

theorem Before.irrefl {a : List α} (h : Before more a a) : False := by
  rcases h with ⟨-, hne⟩ | h
  · exact hne rfl
  · exact h.not_common List.suffix_rfl List.suffix_rfl

theorem Before.asymm {a b : List α} (h : Before more a b) (h' : Before more b a) : False := by
  rcases h with ⟨hab, hne⟩ | h
  · rcases h' with ⟨hba, -⟩ | h'
    · exact hne (hab.eq_of_length (le_antisymm hab.length_le hba.length_le))
    · exact h'.not_common List.suffix_rfl hab
  · rcases h' with ⟨hba, -⟩ | h'
    · exact h.not_common List.suffix_rfl hba
    · exact h.asymm h'

theorem before_cons (x : α) (a : List α) : Before more a (x :: a) :=
  Or.inl ⟨List.suffix_cons x a, fun h => List.cons_ne_self x a h.symm⟩

theorem Before.cons {a b : List α} (h : Before more a b) (x : α) : Before more a (x :: b) := by
  rcases h with ⟨hab, -⟩ | h
  · refine Or.inl ⟨hab.trans (List.suffix_cons x b), fun heq => ?_⟩
    have hlen := hab.length_le
    rw [heq, List.length_cons] at hlen
    omega
  · exact Or.inr (h.extend List.suffix_rfl (List.suffix_cons x b))

/-! ### First ways

The ways by which a walk comes to a place first, said of the relation and its
order alone. A set of ways is served when it goes on to the new places only, and
the first ways are the ways of a served set that begins at the start.
-/

section Ways

variable (more : List α → List α) (start : α)

/-- No way of the set that comes before `w` leads to `x`. -/
def Unmet (S : List α → Prop) (w : List α) (x : α) : Prop :=
  x ≠ start ∧ ∀ u, S u → Before more u w → x ∉ more u

/-- A way of the set leads on to the places that no way of it before leads to, and to no others. -/
def Served (S : List α → Prop) : Prop :=
  ∀ w, S w ↔ w = [start] ∨ ∃ x u, w = x :: u ∧ S u ∧ x ∈ more u ∧ Unmet more start S u x

/-- A way by which its place is come to first. -/
def FirstWay (w : List α) : Prop := ∃ S, Served more start S ∧ S w

end Ways

theorem Served.suffix {S : List α → Prop} (hS : Served more start S) {w w' : List α} (h : S w)
    (hsuffix : w' <:+ w) (hne : w' ≠ []) : S w' := by
  induction w with
  | nil => exact absurd (List.suffix_nil.mp hsuffix) hne
  | cons y t ih =>
      rcases List.suffix_cons_iff.mp hsuffix with rfl | hsuffix
      · exact h
      · rcases (hS _).mp h with heq | ⟨x, u, heq, hu, -⟩
        · rw [(List.cons.inj heq).2] at hsuffix
          exact absurd (List.suffix_nil.mp hsuffix) hne
        · rw [(List.cons.inj heq).2] at hsuffix ih
          exact ih hu hsuffix

theorem Served.starts {S : List α → Prop} (hS : Served more start S) {w : List α} (h : S w) :
    [start] <:+ w := by
  induction w with
  | nil =>
      rcases (hS _).mp h with heq | ⟨x, u, heq, -⟩
      · cases heq
      · cases heq
  | cons y t ih =>
      rcases (hS _).mp h with heq | ⟨x, u, heq, hu, -⟩
      · exact heq ▸ List.suffix_rfl
      · obtain ⟨-, rfl⟩ := List.cons.inj heq
        exact (ih hu).trans (List.suffix_cons y t)

/-! ### The walk

The walk itself, with a stack and a list of the places met, as a program has it.
-/

/-- A depth-first walk under way. -/
structure Walk (α : Type*) where
  /-- The ways still to take, the one put on last first. -/
  stack : List (List α)
  met : List α

/-- A place that was met before is not come to again. -/
def push (w : List α) (s : Walk α) (x : α) : Walk α :=
  if x ∈ s.met then s else { stack := (x :: w) :: s.stack, met := x :: s.met }

/-- The way put on last is taken off and the ways on from it are put on. -/
def turn (more : List α → List α) (s : Walk α) : Walk α :=
  match s.stack with
  | [] => s
  | w :: rest => (more w).foldl (push w) { s with stack := rest }

/-- The walk after some turns. -/
def walk (more : List α → List α) (start : α) (n : Nat) : Walk α :=
  (turn more)^[n] { stack := [[start]], met := [start] }

theorem walk_succ (n : Nat) : walk more start (n + 1) = turn more (walk more start n) :=
  Function.iterate_succ_apply' _ n _

theorem walk_of_nil {n : Nat} (h : (walk more start n).stack = []) :
    walk more start (n + 1) = walk more start n := by
  rw [walk_succ]
  unfold turn
  rw [h]

/-- What one way puts on the stack: a way to each place not met before, the last listed on top. -/
theorem foldl_push (w : List α) (xs : List α) (s : Walk α) :
    ∃ new : List α, (xs.foldl (push w) s).stack = new.map (· :: w) ++ s.stack ∧
      (xs.foldl (push w) s).met = new ++ s.met ∧ (∀ x, x ∈ new ↔ x ∈ xs ∧ x ∉ s.met) ∧
      new.Pairwise fun x y => xs.idxOf y < xs.idxOf x := by
  induction xs using List.reverseRecOn with
  | nil => exact ⟨[], rfl, rfl, by simp, List.Pairwise.nil⟩
  | append_singleton xs z ih =>
      obtain ⟨new, hstack, hmet, hmem, hlisted⟩ := ih
      have hlisted' : new.Pairwise fun x y => (xs ++ [z]).idxOf y < (xs ++ [z]).idxOf x := by
        refine hlisted.imp_of_mem fun {x y} hx hy hlt => ?_
        rwa [List.idxOf_append_of_mem ((hmem x).mp hx).1,
          List.idxOf_append_of_mem ((hmem y).mp hy).1]
      rw [List.foldl_append, List.foldl_cons, List.foldl_nil, push]
      split
      · rename_i hz
        refine ⟨new, hstack, hmet, fun x => ?_, hlisted'⟩
        rw [hmem x, List.mem_append, List.mem_singleton]
        constructor
        · rintro ⟨hx, hold⟩
          exact ⟨Or.inl hx, hold⟩
        · rintro ⟨hx | rfl, hold⟩
          · exact ⟨hx, hold⟩
          · rw [hmet, List.mem_append] at hz
            exact (hmem x).mp (hz.resolve_right hold)
      · rename_i hz
        rw [hmet, List.mem_append, not_or] at hz
        have hfresh : z ∉ xs := fun hin => hz.1 ((hmem z).mpr ⟨hin, hz.2⟩)
        refine ⟨z :: new, by simp [hstack], by simp [hmet], fun x => ?_,
          List.pairwise_cons.mpr ⟨fun y hy => ?_, hlisted'⟩⟩
        · rw [List.mem_cons, hmem x, List.mem_append, List.mem_singleton]
          constructor
          · rintro (rfl | ⟨hx, hold⟩)
            · exact ⟨Or.inr rfl, hz.2⟩
            · exact ⟨Or.inl hx, hold⟩
          · rintro ⟨hx | rfl, hold⟩
            · exact Or.inr ⟨hx, hold⟩
            · exact Or.inl rfl
        · have hin := ((hmem y).mp hy).1
          rw [List.idxOf_append_of_mem hin, List.idxOf_append_of_notMem hfresh]
          exact Nat.lt_of_lt_of_le (List.idxOf_lt_length_of_mem hin) (Nat.le_add_right _ _)

/-! ### What holds after every turn

The stack holds the ways in the order in which they are taken, and what was
taken stands before all of it. These two facts carry both directions below.
-/

section Walks

variable (more : List α → List α) (start : α)

/-- The walk takes the way at this turn. -/
def TakenAt (k : Nat) (w : List α) : Prop := ∃ rest, (walk more start k).stack = w :: rest

/-- The walk took the way at one of its first turns. -/
def Taken (n : Nat) (w : List α) : Prop := ∃ k < n, TakenAt more start k w

/-- The ways on the stack part, each from those below it; what was taken comes before them; and
a place has been met when a way that was taken leads to it. -/
structure Ordered (n : Nat) : Prop where
  parted : (walk more start n).stack.Pairwise (Parts more)
  before : ∀ u, Taken more start n u → ∀ w ∈ (walk more start n).stack, Before more u w
  met : ∀ x, x ∈ (walk more start n).met ↔ x = start ∨ ∃ u, Taken more start n u ∧ x ∈ more u

end Walks

theorem taken_succ_of_nil {n : Nat} (h : (walk more start n).stack = []) (w : List α) :
    Taken more start (n + 1) w ↔ Taken more start n w := by
  constructor
  · rintro ⟨k, hk, rest, htop⟩
    rcases Nat.lt_succ_iff_lt_or_eq.mp hk with hk | rfl
    · exact ⟨k, hk, rest, htop⟩
    · rw [h] at htop
      cases htop
  · rintro ⟨k, hk, htop⟩
    exact ⟨k, Nat.lt_succ_of_lt hk, htop⟩

theorem taken_succ {n : Nat} {top : List α} {rest : List (List α)}
    (h : (walk more start n).stack = top :: rest) (w : List α) :
    Taken more start (n + 1) w ↔ Taken more start n w ∨ w = top := by
  constructor
  · rintro ⟨k, hk, rest', htop⟩
    rcases Nat.lt_succ_iff_lt_or_eq.mp hk with hk | rfl
    · exact Or.inl ⟨k, hk, rest', htop⟩
    · rw [h] at htop
      exact Or.inr (List.cons.inj htop).1.symm
  · rintro (⟨k, hk, htop⟩ | rfl)
    · exact ⟨k, Nat.lt_succ_of_lt hk, htop⟩
    · exact ⟨n, Nat.lt_succ_self n, rest, h⟩

/-- A turn, as what it puts on the stack in place of what it takes. -/
theorem walk_turn {n : Nat} {top : List α} {rest : List (List α)}
    (h : (walk more start n).stack = top :: rest) :
    ∃ new : List α, (walk more start (n + 1)).stack = new.map (· :: top) ++ rest ∧
      (walk more start (n + 1)).met = new ++ (walk more start n).met ∧
      (∀ x, x ∈ new ↔ x ∈ more top ∧ x ∉ (walk more start n).met) ∧
      new.Pairwise fun x y => (more top).idxOf y < (more top).idxOf x := by
  rw [walk_succ]
  unfold turn
  rw [h]
  exact foldl_push top (more top) _

theorem ordered (more : List α → List α) (start : α) (n : Nat) : Ordered more start n := by
  induction n with
  | zero =>
      refine ⟨List.pairwise_singleton _ _, ?_, fun x => ?_⟩
      · rintro u ⟨k, hk, -⟩
        exact absurd hk (Nat.not_lt_zero k)
      · rw [show (walk more start 0).met = [start] from rfl, List.mem_singleton]
        refine (or_iff_left ?_).symm
        rintro ⟨u, ⟨k, hk, -⟩, -⟩
        exact Nat.not_lt_zero k hk
  | succ n ih =>
      cases htop : (walk more start n).stack with
      | nil =>
          have htaken := taken_succ_of_nil htop
          refine ⟨?_, ?_, ?_⟩
          · rw [walk_of_nil htop]
            exact ih.parted
          · rw [walk_of_nil htop]
            exact fun u hu => ih.before u ((htaken u).mp hu)
          · rw [walk_of_nil htop]
            simpa only [htaken] using ih.met
      | cons top rest =>
          obtain ⟨new, hstack, hmet, hmem, hlisted⟩ := walk_turn htop
          have htaken := taken_succ htop
          have hparted := ih.parted
          have hbefore := ih.before
          rw [htop] at hparted hbefore
          obtain ⟨hbelow, hrest⟩ := List.pairwise_cons.mp hparted
          refine ⟨?_, ?_, fun x => ?_⟩
          · rw [hstack]
            refine List.pairwise_append.mpr ⟨?_, hrest, ?_⟩
            · refine List.pairwise_map.mpr (hlisted.imp fun {x y} hlt => ?_)
              exact ⟨top, x, y, List.suffix_rfl, List.suffix_rfl, hlt⟩
            · intro s hs t ht
              obtain ⟨x, -, rfl⟩ := List.mem_map.mp hs
              exact (hbelow t ht).extend (List.suffix_cons x top) List.suffix_rfl
          · intro u hu s hs
            rw [hstack] at hs
            rcases List.mem_append.mp hs with hs | hs
            · obtain ⟨x, -, rfl⟩ := List.mem_map.mp hs
              rcases (htaken u).mp hu with hu | rfl
              · exact (hbefore u hu top List.mem_cons_self).cons x
              · exact before_cons x u
            · rcases (htaken u).mp hu with hu | heq
              · exact hbefore u hu s (List.mem_cons_of_mem _ hs)
              · exact heq ▸ Or.inr (hbelow s hs)
          · rw [hmet, List.mem_append, hmem x, ih.met x]
            simp only [htaken]
            by_cases hx : x = start ∨ ∃ u, Taken more start n u ∧ x ∈ more u
            · refine iff_of_true (Or.inr hx) (hx.imp_right ?_)
              rintro ⟨u, hu, hin⟩
              exact ⟨u, Or.inl hu, hin⟩
            · rw [or_iff_left hx, and_iff_left hx]
              rw [not_or] at hx
              rw [or_iff_right hx.1]
              constructor
              · exact fun hin => ⟨top, Or.inr rfl, hin⟩
              · rintro ⟨u, hu | rfl, hin⟩
                · exact absurd ⟨u, hu, hin⟩ hx.2
                · exact hin

/-! ### The walk takes the ways of every served set

By induction on the turns: what is on the stack belongs to the set, and what belongs to the set
has been taken or continues what is on the stack.  So when the walk meets a place for the first
time, nothing of the set that comes before leads to it.
-/

/-- What the walk knows of a set of ways. -/
structure Sound (more : List α → List α) (start : α) (S : List α → Prop) (n : Nat) : Prop where
  stack : ∀ w ∈ (walk more start n).stack, S w
  taken : ∀ w, Taken more start n w → S w
  all : ∀ w, S w → Taken more start n w ∨ ∃ t ∈ (walk more start n).stack, t <:+ w

theorem Sound.unmet {S : List α → Prop} {n : Nat} (h : Sound more start S n) {top : List α}
    {rest : List (List α)} (htop : (walk more start n).stack = top :: rest) (x : α) :
    x ∉ (walk more start n).met ↔ Unmet more start S top x := by
  have hord := ordered more start n
  rw [hord.met x, not_or]
  refine and_congr_right fun _ => ⟨fun hnot u hu hbefore hin => ?_, ?_⟩
  · have hparted := hord.parted
    rw [htop] at hparted
    rcases h.all u hu with htaken | ⟨t, ht, hsuffix⟩
    · exact hnot ⟨u, htaken, hin⟩
    · rw [htop] at ht
      rcases List.mem_cons.mp ht with rfl | ht
      · by_cases heq : t = u
        · exact (heq ▸ hbefore).irrefl
        · exact hbefore.asymm (Or.inl ⟨hsuffix, heq⟩)
      · have hpart := (List.pairwise_cons.mp hparted).1 t ht
        exact hbefore.asymm (Or.inr (hpart.extend List.suffix_rfl hsuffix))
  · rintro hunmet ⟨u, htaken, hin⟩
    exact hunmet u (h.taken u htaken) (hord.before u htaken top (htop ▸ List.mem_cons_self)) hin

theorem Served.sound {S : List α → Prop} (hS : Served more start S) (n : Nat) :
    Sound more start S n := by
  induction n with
  | zero =>
      refine ⟨fun w hw => ?_, ?_, fun w hw => Or.inr ⟨[start], List.mem_cons_self, hS.starts hw⟩⟩
      · obtain rfl := List.mem_singleton.mp hw
        exact (hS _).mpr (Or.inl rfl)
      · rintro w ⟨k, hk, -⟩
        exact absurd hk (Nat.not_lt_zero k)
  | succ n ih =>
      cases htop : (walk more start n).stack with
      | nil =>
          have htaken := taken_succ_of_nil htop
          refine ⟨?_, fun w hw => ih.taken w ((htaken w).mp hw), fun w hw => ?_⟩
          · rw [walk_of_nil htop]
            exact ih.stack
          · rw [walk_of_nil htop, htaken]
            exact ih.all w hw
      | cons top rest =>
          obtain ⟨new, hstack, -, hmem, -⟩ := walk_turn htop
          have htaken := taken_succ htop
          have hin := ih.stack
          rw [htop] at hin
          obtain ⟨htopS, hrestS⟩ := List.forall_mem_cons.mp hin
          refine ⟨fun w hw => ?_, fun w hw => ?_, fun w hw => ?_⟩
          · rw [hstack] at hw
            rcases List.mem_append.mp hw with hw | hw
            · obtain ⟨x, hx, rfl⟩ := List.mem_map.mp hw
              obtain ⟨hmore, hnew⟩ := (hmem x).mp hx
              exact (hS _).mpr (Or.inr ⟨x, top, rfl, htopS, hmore, (ih.unmet htop x).mp hnew⟩)
            · exact hrestS w hw
          · rcases (htaken w).mp hw with hw | rfl
            · exact ih.taken w hw
            · exact htopS
          · rw [hstack, htaken]
            rcases ih.all w hw with hw | ⟨t, ht, hsuffix⟩
            · exact Or.inl (Or.inl hw)
            rw [htop] at ht
            rcases List.mem_cons.mp ht with rfl | ht
            · -- What continues the way that is taken continues one it puts on the stack.
              obtain ⟨pre, rfl⟩ := hsuffix
              rcases List.eq_nil_or_concat pre with rfl | ⟨pre, x, rfl⟩
              · exact Or.inl (Or.inr rfl)
              have hone : x :: t <:+ (pre.concat x) ++ t := ⟨pre, by simp⟩
              have hne : t ≠ [] := by
                rintro rfl
                exact absurd (List.suffix_nil.mp (hS.starts htopS)) (List.cons_ne_nil _ _)
              rcases (hS _).mp (hS.suffix hw hone (List.cons_ne_nil _ _)) with
                heq | ⟨y, u, heq, -, hmore, hunmet⟩
              · exact absurd (List.cons.inj heq).2 hne
              · obtain ⟨rfl, rfl⟩ := List.cons.inj heq
                refine Or.inr ⟨x :: t, List.mem_append_left _ (List.mem_map.mpr ⟨x, ?_, rfl⟩), hone⟩
                exact (hmem x).mpr ⟨hmore, (ih.unmet htop x).mpr hunmet⟩
            · exact Or.inr ⟨t, List.mem_append_right _ ht, hsuffix⟩

/-! ### The ways of a walk that ends are a served set

The other direction: at each way that was taken, what had been met is what
earlier ways of the walk lead to.
-/

/-- A way on the stack is the start's, or goes on from one that was taken to a place not met
then. -/
theorem stack_cases {n : Nat} {w : List α} (hw : w ∈ (walk more start n).stack) :
    w = [start] ∨ ∃ x u k, w = x :: u ∧ TakenAt more start k u ∧ x ∈ more u ∧
      x ∉ (walk more start k).met := by
  induction n with
  | zero => exact Or.inl (List.mem_singleton.mp hw)
  | succ n ih =>
      cases htop : (walk more start n).stack with
      | nil =>
          rw [walk_of_nil htop] at hw
          exact ih hw
      | cons top rest =>
          obtain ⟨new, hstack, -, hmem, -⟩ := walk_turn htop
          rw [hstack] at hw
          rcases List.mem_append.mp hw with hw | hw
          · obtain ⟨x, hx, rfl⟩ := List.mem_map.mp hw
            exact Or.inr ⟨x, top, n, rfl, ⟨rest, htop⟩, (hmem x).mp hx⟩
          · exact ih (htop ▸ List.mem_cons_of_mem _ hw)

section Ended

variable {N : Nat} (hend : (walk more start N).stack = [])
include hend

theorem stack_of_le {n : Nat} (hn : N ≤ n) : (walk more start n).stack = [] := by
  induction n, hn using Nat.le_induction with
  | base => exact hend
  | succ n _ ih => rw [walk_of_nil ih, ih]

/-- What is on the stack is taken some time. -/
theorem takenAt_of_mem {n : Nat} {w : List α} (hw : w ∈ (walk more start n).stack) :
    ∃ k, TakenAt more start k w := by
  by_contra hnever
  have hstays : ∀ m, n ≤ m → w ∈ (walk more start m).stack := by
    intro m hm
    induction m, hm using Nat.le_induction with
    | base => exact hw
    | succ m _ ih =>
        obtain ⟨top, rest, htop⟩ := List.exists_cons_of_ne_nil (List.ne_nil_of_mem ih)
        obtain ⟨new, hstack, -⟩ := walk_turn htop
        rw [hstack]
        rw [htop] at ih
        rcases List.mem_cons.mp ih with rfl | ih
        · exact absurd ⟨m, rest, htop⟩ hnever
        · exact List.mem_append_right _ ih
  have hlast := hstays (max N n) (Nat.le_max_right N n)
  rw [stack_of_le hend (Nat.le_max_left N n)] at hlast
  exact absurd hlast List.not_mem_nil

omit hend in
theorem unmet_takenAt {k : Nat} {w : List α} (hw : TakenAt more start k w) (x : α) :
    x ∉ (walk more start k).met ↔
      Unmet more start (fun u => ∃ k, TakenAt more start k u) w x := by
  obtain ⟨rest, htop⟩ := hw
  have hord := ordered more start k
  rw [hord.met x, not_or]
  refine and_congr_right fun _ => ⟨?_, ?_⟩
  · rintro hnot u ⟨j, hu⟩ hbefore hin
    rcases Nat.lt_trichotomy j k with hj | rfl | hj
    · exact hnot ⟨u, ⟨j, hj, hu⟩, hin⟩
    · obtain ⟨rest', hu⟩ := hu
      rw [htop] at hu
      exact ((List.cons.inj hu).1 ▸ hbefore).irrefl
    · obtain ⟨rest', hu⟩ := hu
      have hlater := (ordered more start j).before w ⟨k, hj, rest, htop⟩ u
        (hu ▸ List.mem_cons_self)
      exact hbefore.asymm hlater
  · rintro hunmet ⟨u, ⟨j, hj, hu⟩, hin⟩
    exact hunmet u ⟨j, hu⟩ (hord.before u ⟨j, hj, hu⟩ w (htop ▸ List.mem_cons_self)) hin

theorem served_takenAt : Served more start fun w => ∃ k, TakenAt more start k w := by
  intro w
  constructor
  · rintro ⟨k, rest, htop⟩
    rcases stack_cases (htop ▸ List.mem_cons_self) with heq | ⟨x, u, j, heq, hu, hmore, hnew⟩
    · exact Or.inl heq
    · exact Or.inr ⟨x, u, heq, ⟨j, hu⟩, hmore, (unmet_takenAt hu x).mp hnew⟩
  · rintro (rfl | ⟨x, u, rfl, ⟨k, hu⟩, hmore, hunmet⟩)
    · exact ⟨0, [], rfl⟩
    · have hnew := (unmet_takenAt hu x).mpr hunmet
      obtain ⟨rest, htop⟩ := hu
      obtain ⟨new, hstack, -, hmem, -⟩ := walk_turn htop
      refine takenAt_of_mem hend (n := k + 1) ?_
      rw [hstack]
      exact List.mem_append_left _ (List.mem_map.mpr ⟨x, (hmem x).mpr ⟨hmore, hnew⟩, rfl⟩)

/-- **The first ways are those the walk takes.** -/
theorem firstWay_iff {w : List α} : FirstWay more start w ↔ ∃ k, TakenAt more start k w := by
  constructor
  · rintro ⟨S, hS, hw⟩
    rcases (hS.sound N).all w hw with ⟨k, -, htop⟩ | ⟨t, ht, -⟩
    · exact ⟨k, htop⟩
    · rw [hend] at ht
      exact absurd ht List.not_mem_nil
  · exact fun hw => ⟨_, served_takenAt hend, hw⟩

/-- **A place has not been met when a way is taken exactly when no first way that comes before
leads to it.** -/
theorem notMem_met_iff {k : Nat} {w : List α} (hw : TakenAt more start k w) (x : α) :
    x ∉ (walk more start k).met ↔ Unmet more start (FirstWay more start) w x := by
  rw [unmet_takenAt hw x, show FirstWay more start = fun u => ∃ k, TakenAt more start k u from
    funext fun u => propext (firstWay_iff hend)]

end Ended

end FirstCome
