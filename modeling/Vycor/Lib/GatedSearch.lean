/-
Search through gates that the search itself opens.

Edges yield keys.  A gated edge is taken only to a node that a key found so far opens; one that
is still shut is put off.  After a round that found a key, what was put off is tried again, and a
round that finds none ends the search.

At the end the nodes met and the keys found are the least sets that hold the starts and are
closed under the rules (`mem_rounds`).  The rules speak of no order, so none matters.
-/
import Vycor.Lib.Worklist

namespace GatedSearch

/-- A graph some of whose edges lead on only once a key is found for where they lead. -/
structure Problem (ν ε κ : Type) where
  edges : ν → List ε
  next : ε → ν
  /-- What an edge yields, taken or not. -/
  yields : ε → Option κ
  gated : ε → Bool
  /-- The keys that open a node. -/
  openers : ν → List κ

/-- A worklist with the keys found, the nodes put off, and whether the round found a key.
-/
structure State (ν κ : Type) extends Worklist.State ν where
  keys : List κ := []
  putOff : List ν := []
  changed : Bool := false

variable {ν ε κ : Type} [DecidableEq ν] [DecidableEq κ] (p : Problem ν ε κ)

/-- A node goes on the worklist unless it was met. -/
def enqueue (s : State ν κ) (x : ν) : State ν κ := { s with toState := Worklist.enqueue s.toState x }

/-- A key found so far opens the node. -/
def isOpen (s : State ν κ) (x : ν) : Bool := (p.openers x).any (· ∈ s.keys)

/-- The key an edge yields is found, once. -/
def find (s : State ν κ) (e : ε) : State ν κ :=
  match p.yields e with
  | some k => if k ∈ s.keys then s else { s with keys := s.keys ++ [k], changed := true }
  | none => s

/-- Go through a gate, or put it off. -/
def pass (s : State ν κ) (x : ν) : State ν κ :=
  if isOpen p s x then enqueue s x else { s with putOff := s.putOff ++ [x] }

/-- An edge yields its key and leads on, through a gate only to a node that is open. -/
def visit (s : State ν κ) (e : ε) : State ν κ :=
  let s := find p s e
  if p.gated e then pass p s (p.next e) else enqueue s (p.next e)

/-- Work off the queue. -/
def drain : Nat → State ν κ → State ν κ
  | 0, s => s
  | fuel + 1, s =>
    match s.queue with
    | [] => s
    | current :: rest => drain fuel ((p.edges current).foldl (visit p) { s with queue := rest })

/-- Try again what was put off. -/
def retry (s : State ν κ) : State ν κ := s.putOff.foldl (pass p) { s with putOff := [] }

/-- Rounds until one finds no new key, with the nodes put off tried again between them. -/
def rounds (turns : Nat) : Nat → State ν κ → State ν κ
  | 0, s => s
  | fuel + 1, s =>
    let s := drain p turns { s with changed := false }
    if !s.changed then s else rounds turns fuel (retry p s)

/-! ### The rules

What the search may find at most, as a closure under its edges. The search is
shown to find the least such pair of sets.
-/

/-- The sets hold the starts, what their edges yield, and what their edges lead to, but for
gated edges to a node that no key in the set opens. -/
structure Closed (starts : List ν) (A : Set ν) (C : Set κ) : Prop where
  started : ∀ x ∈ starts, x ∈ A
  yielded : ∀ x ∈ A, ∀ e ∈ p.edges x, ∀ k, p.yields e = some k → k ∈ C
  taken : ∀ x ∈ A, ∀ e ∈ p.edges x,
    (p.gated e = true → ∃ k ∈ p.openers (p.next e), k ∈ C) → p.next e ∈ A

variable {p} {starts : List ν}

omit [DecidableEq ν] in
theorem isOpen_iff {s : State ν κ} {x : ν} :
    isOpen p s x = true ↔ ∃ k ∈ p.openers x, k ∈ s.keys := by
  simp [isOpen]

/-! ### What a step adds

The sets only grow, and a step accounts for what it was given: an edge is
settled when what it yields has been found and its target has been met or put
off.
-/

/-- A state that goes on from another: nothing met, found or put off is lost, and
`changed` is raised only by a new key. -/
structure Adds (s s' : State ν κ) : Prop where
  met : ∀ x ∈ s.met, x ∈ s'.met
  keys : ∀ k ∈ s.keys, k ∈ s'.keys
  putOff : ∀ x ∈ s.putOff, x ∈ s'.putOff
  more : s.keys.length ≤ s'.keys.length
  stays : s.changed = true → s'.changed = true
  found : s'.changed = true → s.changed = true ∨ s.keys.length < s'.keys.length

omit [DecidableEq ν] [DecidableEq κ] in
theorem Adds.refl (s : State ν κ) : Adds s s :=
  ⟨fun _ => id, fun _ => id, fun _ => id, Nat.le_refl _, id, Or.inl⟩

omit [DecidableEq ν] [DecidableEq κ] in
theorem Adds.trans {s s' s'' : State ν κ} (h : Adds s s') (h' : Adds s' s'') : Adds s s'' where
  met x hx := h'.met x (h.met x hx)
  keys k hk := h'.keys k (h.keys k hk)
  putOff x hx := h'.putOff x (h.putOff x hx)
  more := h.more.trans h'.more
  stays hs := h'.stays (h.stays hs)
  found hs := by
    rcases h'.found hs with hs | hlt
    · exact (h.found hs).imp_right fun hlt => hlt.trans_le h'.more
    · exact Or.inr (h.more.trans_lt hlt)

/-- A step queues exactly what it meets first. -/
structure Queues (s s' : State ν κ) : Prop where
  settled : ∀ x ∈ s'.met, x ∉ s'.queue → x ∈ s.met ∧ x ∉ s.queue
  length : s'.queue.length + s.met.length = s'.met.length + s.queue.length

omit [DecidableEq ν] [DecidableEq κ] in
theorem Queues.refl (s : State ν κ) : Queues s s :=
  ⟨fun _ hx hnot => ⟨hx, hnot⟩, Nat.add_comm _ _⟩

omit [DecidableEq ν] [DecidableEq κ] in
theorem Queues.trans {s s' s'' : State ν κ} (h : Queues s s') (h' : Queues s' s'') :
    Queues s s'' where
  settled x hx hnot := by
    obtain ⟨hin, hout⟩ := h'.settled x hx hnot
    exact h.settled x hin hout
  length := by
    have hfirst := h.length
    have hsecond := h'.length
    omega

omit [DecidableEq κ] in
theorem enqueue_adds (s : State ν κ) (x : ν) :
    Adds s (enqueue s x) ∧ Queues s (enqueue s x) ∧ x ∈ (enqueue s x).met := by
  have hmem := Worklist.mem_foldl_enqueue [x] s.toState
  refine ⟨⟨fun y hy => (hmem y).mpr (Or.inl hy), fun _ => id, fun _ => id, Nat.le_refl _, id,
    Or.inl⟩, ⟨fun y hy hnot => ?_, ?_⟩, (hmem x).mpr (Or.inr (List.mem_singleton_self x))⟩
  · exact Worklist.settled_foldl_enqueue [x] hy hnot
  · exact Worklist.length_foldl_enqueue [x] s.toState

omit [DecidableEq ν] in
theorem find_adds (s : State ν κ) (e : ε) :
    Adds s (find p s e) ∧ (find p s e).toState = s.toState ∧ (find p s e).putOff = s.putOff ∧
      ∀ k, p.yields e = some k → k ∈ (find p s e).keys := by
  unfold find
  cases hyield : p.yields e with
  | none => exact ⟨Adds.refl s, rfl, rfl, fun k hk => by cases hk⟩
  | some k =>
      by_cases hk : k ∈ s.keys
      · dsimp only
        rw [if_pos hk]
        exact ⟨Adds.refl s, rfl, rfl, fun k' hk' => Option.some.inj hk' ▸ hk⟩
      · dsimp only
        rw [if_neg hk]
        refine ⟨⟨fun _ => id, fun k' hk' => List.mem_append_left _ hk', fun _ => id, ?_,
          fun _ => rfl, fun _ => Or.inr ?_⟩, rfl, rfl, fun k' hk' => ?_⟩
        · simp
        · simp
        · rw [← Option.some.inj hk']
          exact List.mem_append_right _ (List.mem_singleton_self k)

theorem pass_adds (s : State ν κ) (x : ν) :
    Adds s (pass p s x) ∧ Queues s (pass p s x) ∧
      (x ∈ (pass p s x).met ∨ x ∈ (pass p s x).putOff) := by
  unfold pass
  split
  · obtain ⟨hadds, hqueues, hmet⟩ := enqueue_adds s x
    exact ⟨hadds, hqueues, Or.inl hmet⟩
  · refine ⟨⟨fun _ => id, fun _ => id, fun y hy => List.mem_append_left _ hy, Nat.le_refl _, id,
      Or.inl⟩, ⟨fun y hy hnot => ⟨hy, hnot⟩, Nat.add_comm _ _⟩, Or.inr ?_⟩
    exact List.mem_append_right _ (List.mem_singleton_self x)

/-- What an edge yields has been found and where it leads has been met or put off. -/
def Settled (p : Problem ν ε κ) (s : State ν κ) (e : ε) : Prop :=
  (∀ k, p.yields e = some k → k ∈ s.keys) ∧
    (p.next e ∈ s.met ∨ (p.gated e = true ∧ p.next e ∈ s.putOff))

omit [DecidableEq ν] [DecidableEq κ] in
theorem Settled.mono {s s' : State ν κ} {e : ε} (h : Settled p s e) (hadds : Adds s s') :
    Settled p s' e :=
  ⟨fun k hk => hadds.keys k (h.1 k hk),
    h.2.imp (hadds.met _) fun hput => ⟨hput.1, hadds.putOff _ hput.2⟩⟩

theorem visit_adds (s : State ν κ) (e : ε) :
    Adds s (visit p s e) ∧ Queues s (visit p s e) ∧ Settled p (visit p s e) e := by
  obtain ⟨hfind, hsearch, -, hkeys⟩ := find_adds (p := p) s e
  have hqueues : Queues s (find p s e) := by
    refine ⟨?_, ?_⟩
    · rw [hsearch]
      exact (Queues.refl s).settled
    · rw [hsearch]
      exact (Queues.refl s).length
  unfold visit
  by_cases hgated : p.gated e = true
  · obtain ⟨hadds, hqueues', hmet⟩ := pass_adds (p := p) (find p s e) (p.next e)
    simp only [if_pos hgated]
    exact ⟨hfind.trans hadds, hqueues.trans hqueues', fun k hk => hadds.keys k (hkeys k hk),
      hmet.imp_right fun hput => ⟨hgated, hput⟩⟩
  · obtain ⟨hadds, hqueues', hmet⟩ := enqueue_adds (find p s e) (p.next e)
    simp only [if_neg hgated]
    exact ⟨hfind.trans hadds, hqueues.trans hqueues', fun k hk => hadds.keys k (hkeys k hk),
      Or.inl hmet⟩

theorem foldl_visit_adds (es : List ε) (s : State ν κ) :
    Adds s (es.foldl (visit p) s) ∧ Queues s (es.foldl (visit p) s) ∧
      ∀ e ∈ es, Settled p (es.foldl (visit p) s) e := by
  induction es generalizing s with
  | nil => exact ⟨Adds.refl s, Queues.refl s, fun e he => absurd he List.not_mem_nil⟩
  | cons e rest ih =>
      obtain ⟨hadds, hqueues, hsettled⟩ := visit_adds (p := p) s e
      obtain ⟨hadds', hqueues', hsettled'⟩ := ih (visit p s e)
      exact ⟨hadds.trans hadds', hqueues.trans hqueues',
        List.forall_mem_cons.mpr ⟨hsettled.mono hadds', hsettled'⟩⟩

/-! ### The invariant

Soundness and completeness side by side: everything met follows from the rules,
and what was met and is not queued is settled. Edges behind a shut gate wait in
the list of those put off.
-/

/-- What every step keeps.  `fresh` is what the last field of a state is for: while nothing has
been found since, what is put off is still shut. -/
structure Kept (p : Problem ν ε κ) (starts : List ν) (s : State ν κ) : Prop where
  nodup : s.met.Nodup
  once : s.keys.Nodup
  queued : ∀ x ∈ s.queue, x ∈ s.met
  started : ∀ x ∈ starts, x ∈ s.met
  sound : ∀ A C, Closed p starts A C →
    (∀ x ∈ s.met, x ∈ A) ∧ (∀ k ∈ s.keys, k ∈ C) ∧
      ∀ x ∈ s.putOff, (∃ k ∈ p.openers x, k ∈ C) → x ∈ A
  fresh : s.changed = false → ∀ x ∈ s.putOff, isOpen p s x = false

/-- A node may be queued where the rules lead to it. -/
theorem Kept.enqueue {s : State ν κ} {x : ν} (h : Kept p starts s)
    (hx : ∀ A C, Closed p starts A C → x ∈ A) : Kept p starts (enqueue s x) where
  nodup := Worklist.nodup_foldl_enqueue [x] h.nodup
  once := h.once
  queued := Worklist.queued_foldl_enqueue [x] h.queued
  started y hy := (Worklist.mem_foldl_enqueue [x] s.toState y).mpr (Or.inl (h.started y hy))
  sound A C hclosed := by
    obtain ⟨hmet, hrest⟩ := h.sound A C hclosed
    refine ⟨fun y hy => ?_, hrest⟩
    rcases (Worklist.mem_foldl_enqueue [x] s.toState y).mp hy with hy | hy
    · exact hmet y hy
    · rw [List.mem_singleton.mp hy]
      exact hx A C hclosed
  fresh := h.fresh

/-- A gate may be tried where the rules lead through it once it is open. -/
theorem Kept.pass {s : State ν κ} {x : ν} (h : Kept p starts s)
    (hx : ∀ A C, Closed p starts A C → (∃ k ∈ p.openers x, k ∈ C) → x ∈ A) :
    Kept p starts (pass p s x) := by
  unfold GatedSearch.pass
  by_cases hopen : isOpen p s x = true
  · rw [if_pos hopen]
    refine h.enqueue fun A C hclosed => hx A C hclosed ?_
    obtain ⟨k, hk, hfound⟩ := isOpen_iff.mp hopen
    exact ⟨k, hk, (h.sound A C hclosed).2.1 k hfound⟩
  · rw [if_neg hopen]
    refine { h with sound := fun A C hclosed => ?_, fresh := fun hsame y hy => ?_ }
    · obtain ⟨hmet, hkeys, hput⟩ := h.sound A C hclosed
      refine ⟨hmet, hkeys, fun y hy => ?_⟩
      rcases List.mem_append.mp hy with hy | hy
      · exact hput y hy
      · rw [List.mem_singleton.mp hy]
        exact hx A C hclosed
    · rcases List.mem_append.mp hy with hy | hy
      · exact h.fresh hsame y hy
      · rw [List.mem_singleton.mp hy]
        exact Bool.eq_false_iff.mpr hopen

omit [DecidableEq ν] in
theorem Kept.find {s : State ν κ} {e : ε} (h : Kept p starts s)
    (he : ∀ A C, Closed p starts A C → ∀ k, p.yields e = some k → k ∈ C) :
    Kept p starts (find p s e) := by
  unfold GatedSearch.find
  cases hyield : p.yields e with
  | none => exact h
  | some k =>
      dsimp only
      by_cases hk : k ∈ s.keys
      · rw [if_pos hk]
        exact h
      · rw [if_neg hk]
        refine { nodup := h.nodup, queued := h.queued, started := h.started, once := ?_,
                 sound := fun A C hclosed => ?_, fresh := fun hsame => by cases hsame }
        · exact List.nodup_append.mpr ⟨h.once, List.nodup_singleton k, by
            rintro a ha b hb rfl
            exact hk (List.mem_singleton.mp hb ▸ ha)⟩
        · obtain ⟨hmet, hkeys, hput⟩ := h.sound A C hclosed
          refine ⟨hmet, fun k' hk' => ?_, hput⟩
          rcases List.mem_append.mp hk' with hk' | hk'
          · exact hkeys k' hk'
          · rw [List.mem_singleton.mp hk']
            exact he A C hclosed k hyield

/-- An edge of a node that the rules lead to may be visited. -/
theorem Kept.visit {s : State ν κ} {x : ν} {e : ε} (h : Kept p starts s)
    (hx : ∀ A C, Closed p starts A C → x ∈ A) (he : e ∈ p.edges x) :
    Kept p starts (visit p s e) := by
  have hfind := h.find fun A C hclosed k hk => hclosed.yielded x (hx A C hclosed) e he k hk
  unfold GatedSearch.visit
  by_cases hgated : p.gated e = true
  · simp only [if_pos hgated]
    exact hfind.pass fun A C hclosed hopen =>
      hclosed.taken x (hx A C hclosed) e he fun _ => hopen
  · simp only [if_neg hgated]
    exact hfind.enqueue fun A C hclosed =>
      hclosed.taken x (hx A C hclosed) e he fun hyes => absurd hyes hgated

theorem Kept.visits {s : State ν κ} {x : ν} {es : List ε} (h : Kept p starts s)
    (hx : ∀ A C, Closed p starts A C → x ∈ A) (hes : ∀ e ∈ es, e ∈ p.edges x) :
    Kept p starts (es.foldl (GatedSearch.visit p) s) := by
  induction es generalizing s with
  | nil => exact h
  | cons e rest ih =>
      obtain ⟨he, hrest⟩ := List.forall_mem_cons.mp hes
      exact ih (h.visit hx he) hrest

/-- Between two turns what has been met and is not queued is done with. -/
structure Inv (p : Problem ν ε κ) (starts : List ν) (s : State ν κ) : Prop extends
    Kept p starts s where
  done : ∀ x ∈ s.met, x ∉ s.queue → ∀ e ∈ p.edges x, Settled p s e

theorem Inv.turn {s : State ν κ} {current : ν} {rest : List ν} (h : Inv p starts s)
    (hqueue : s.queue = current :: rest) :
    Inv p starts ((p.edges current).foldl (visit p) { s with queue := rest }) := by
  have hcurrent : current ∈ s.met := h.queued _ (hqueue ▸ List.mem_cons_self)
  have hrest : Kept p starts { s with queue := rest } :=
    { nodup := h.nodup, once := h.once, started := h.started, sound := h.sound, fresh := h.fresh
      queued := fun x hx => h.queued x (hqueue ▸ List.mem_cons_of_mem _ hx) }
  obtain ⟨hadds, hqueues, hsettled⟩ := foldl_visit_adds (p := p) (p.edges current)
    { s with queue := rest }
  refine { hrest.visits (fun A C hclosed => (h.sound A C hclosed).1 current hcurrent)
    fun e he => he with done := fun x hx hnot e he => ?_ }
  obtain ⟨hin, hout⟩ := hqueues.settled x hx hnot
  by_cases hxc : x = current
  · subst hxc
    exact hsettled e he
  · have hbefore : Settled p s e := by
      refine h.done x hin ?_ e he
      rw [hqueue, List.mem_cons, not_or]
      exact ⟨hxc, hout⟩
    exact Settled.mono (s := { s with queue := rest }) hbefore hadds

/-! ### Runs

A round empties the queue and then tries what was put off. Each round but the
last finds a key it had not found before, so the keys bound the rounds.
-/

variable {all : List ν} {allKeys : List κ}

/-- Enough fuel empties the queue. -/
theorem Inv.drain {s : State ν κ} (h : Inv p starts s)
    (hall : Closed p starts {x | x ∈ all} {k | k ∈ allKeys}) (fuel : Nat)
    (hfuel : all.length + s.queue.length < fuel + s.met.length) :
    Inv p starts (drain p fuel s) ∧ (GatedSearch.drain p fuel s).queue = [] ∧
      Adds s (GatedSearch.drain p fuel s) := by
  induction fuel generalizing s with
  | zero =>
      have hle : s.met.length ≤ all.length :=
        (List.subperm_of_subset h.nodup fun x hx => (h.sound _ _ hall).1 x hx).length_le
      omega
  | succ fuel ih =>
      unfold GatedSearch.drain
      cases hqueue : s.queue with
      | nil => exact ⟨h, hqueue, Adds.refl s⟩
      | cons current rest =>
          obtain ⟨hadds, hqueues, -⟩ := foldl_visit_adds (p := p) (p.edges current)
            { s with queue := rest }
          have hlength := hqueues.length
          rw [hqueue, List.length_cons] at hfuel
          dsimp only at hlength
          obtain ⟨hinv, hempty, hmore⟩ := ih (h.turn hqueue) (by omega)
          have hpopped : Adds s { s with queue := rest } :=
            ⟨fun _ => id, fun _ => id, fun _ => id, Nat.le_refl _, id, Or.inl⟩
          exact ⟨hinv, hempty, (hpopped.trans hadds).trans hmore⟩

/-- What is put off is met or put off again. -/
theorem foldl_pass_adds (xs : List ν) (s : State ν κ) :
    Adds s (xs.foldl (pass p) s) ∧ Queues s (xs.foldl (pass p) s) ∧
      ∀ x ∈ xs, x ∈ (xs.foldl (pass p) s).met ∨ x ∈ (xs.foldl (pass p) s).putOff := by
  induction xs generalizing s with
  | nil => exact ⟨Adds.refl s, Queues.refl s, fun x hx => absurd hx List.not_mem_nil⟩
  | cons x rest ih =>
      obtain ⟨hadds, hqueues, hx⟩ := pass_adds (p := p) s x
      obtain ⟨hadds', hqueues', hrest⟩ := ih (pass p s x)
      refine ⟨hadds.trans hadds', hqueues.trans hqueues', List.forall_mem_cons.mpr ⟨?_, hrest⟩⟩
      exact hx.imp (hadds'.met x) (hadds'.putOff x)

theorem Kept.passes {s : State ν κ} {xs : List ν} (h : Kept p starts s)
    (hxs : ∀ x ∈ xs, ∀ A C, Closed p starts A C → (∃ k ∈ p.openers x, k ∈ C) → x ∈ A) :
    Kept p starts (xs.foldl (GatedSearch.pass p) s) := by
  induction xs generalizing s with
  | nil => exact h
  | cons x rest ih =>
      obtain ⟨hx, hrest⟩ := List.forall_mem_cons.mp hxs
      exact ih (h.pass hx) hrest

theorem keys_pass (s : State ν κ) (x : ν) :
    (pass p s x).keys = s.keys ∧ (pass p s x).changed = s.changed := by
  unfold pass
  split <;> exact ⟨rfl, rfl⟩

theorem keys_foldl_pass (xs : List ν) (s : State ν κ) :
    (xs.foldl (pass p) s).keys = s.keys ∧ (xs.foldl (pass p) s).changed = s.changed := by
  induction xs generalizing s with
  | nil => exact ⟨rfl, rfl⟩
  | cons x rest ih =>
      obtain ⟨hkeys, hchanged⟩ := ih (pass p s x)
      rw [List.foldl_cons, hkeys, hchanged]
      exact keys_pass s x

/-- After a pass over what was put off, all that is left of it is shut. -/
theorem shut_foldl_pass (xs : List ν) {s : State ν κ}
    (h : ∀ x ∈ s.putOff, isOpen p s x = false) :
    ∀ x ∈ (xs.foldl (pass p) s).putOff, isOpen p (xs.foldl (pass p) s) x = false := by
  induction xs generalizing s with
  | nil => exact h
  | cons x rest ih =>
      apply ih
      have hkeys := (keys_pass (p := p) s x).1
      intro y hy
      unfold isOpen
      rw [hkeys]
      unfold pass at hy
      by_cases hopen : isOpen p s x = true
      · rw [if_pos hopen] at hy
        exact h y hy
      · rw [if_neg hopen] at hy
        rcases List.mem_append.mp hy with hy | hy
        · exact h y hy
        · rw [List.mem_singleton.mp hy]
          exact Bool.eq_false_iff.mpr hopen

theorem Inv.retry {s : State ν κ} (h : Inv p starts s) (hqueue : s.queue = []) :
    Inv p starts { retry p s with changed := false } ∧
      (retry p s).queue.length ≤ (retry p s).met.length ∧ (GatedSearch.retry p s).keys = s.keys := by
  have hempty : Kept p starts { s with putOff := [] } :=
    { h.toKept with
      sound := fun A C hclosed => by
        obtain ⟨hmet, hkeys, -⟩ := h.sound A C hclosed
        exact ⟨hmet, hkeys, fun x hx => absurd hx List.not_mem_nil⟩
      fresh := fun _ x hx => absurd hx List.not_mem_nil }
  have hkept := hempty.passes fun x hx A C hclosed hopen => (h.sound A C hclosed).2.2 x hx hopen
  obtain ⟨hadds, hqueues, hagain⟩ := foldl_pass_adds (p := p) s.putOff { s with putOff := [] }
  have hshut := shut_foldl_pass (p := p) s.putOff (s := { s with putOff := [] })
    fun x hx => absurd hx List.not_mem_nil
  refine ⟨⟨{ hkept with fresh := fun _ => hshut }, fun x hx hnot e he => ?_⟩, ?_,
    (keys_foldl_pass s.putOff { s with putOff := [] }).1⟩
  · obtain ⟨hin, hout⟩ := hqueues.settled x hx hnot
    obtain ⟨hyield, hlead⟩ := h.done x hin hout e he
    refine ⟨fun k hk => hadds.keys k (hyield k hk), ?_⟩
    rcases hlead with hmet | ⟨hgated, hput⟩
    · exact Or.inl (hadds.met _ hmet)
    · exact (hagain _ hput).imp_right fun hput => ⟨hgated, hput⟩
  · have hlength := hqueues.length
    have hnone : ({ s with putOff := [] } : State ν κ).queue.length = 0 := by
      rw [List.length_eq_zero_iff]
      exact hqueue
    unfold GatedSearch.retry
    omega

omit [DecidableEq ν] in
/-- A round that found nothing leaves nothing to do. -/
theorem Inv.closed {s : State ν κ} (h : Inv p starts s) (hqueue : s.queue = [])
    (hsame : s.changed = false) : Closed p starts {x | x ∈ s.met} {k | k ∈ s.keys} where
  started := h.started
  yielded x hx e he k hk := (h.done x hx (by rw [hqueue]; exact List.not_mem_nil) e he).1 k hk
  taken x hx e he hopen := by
    rcases (h.done x hx (by rw [hqueue]; exact List.not_mem_nil) e he).2 with hmet | ⟨hgated, hput⟩
    · exact hmet
    · have hshut := h.fresh hsame _ hput
      rw [isOpen_iff.mpr (hopen hgated)] at hshut
      cases hshut

/-- Enough rounds end the search: every round but the last finds a key. -/
theorem Inv.rounds {s : State ν κ} (h : Inv p starts { s with changed := false })
    (hall : Closed p starts {x | x ∈ all} {k | k ∈ allKeys}) {turns : Nat}
    (hturns : all.length < turns) (hqueue : s.queue.length ≤ s.met.length) (fuel : Nat)
    (hfuel : allKeys.length < fuel + s.keys.length) :
    ∃ s', rounds p turns fuel s = s' ∧ Inv p starts s' ∧ s'.queue = [] ∧ s'.changed = false := by
  induction fuel generalizing s with
  | zero =>
      have hle : s.keys.length ≤ allKeys.length :=
        (List.subperm_of_subset h.once fun k hk => (h.sound _ _ hall).2.1 k hk).length_le
      omega
  | succ fuel ih =>
      obtain ⟨hinv, hempty, hadds⟩ := h.drain hall turns (by dsimp only; omega)
      unfold GatedSearch.rounds
      dsimp only
      generalize GatedSearch.drain p turns { s with changed := false } = s' at hinv hempty hadds ⊢
      cases hchanged : s'.changed with
      | false => exact ⟨s', rfl, hinv, hempty, hchanged⟩
      | true =>
          obtain ⟨hretry, hlength, hkeys⟩ := hinv.retry hempty
          have hmore := (hadds.found hchanged).resolve_left Bool.false_ne_true
          refine ih hretry hlength ?_
          rw [hkeys]
          dsimp only at hmore
          omega

omit [DecidableEq κ] in
theorem foldl_enqueue (xs : List ν) (s : State ν κ) :
    xs.foldl enqueue s = { s with toState := xs.foldl Worklist.enqueue s.toState } := by
  induction xs generalizing s with
  | nil => rfl
  | cons x rest ih => exact ih (enqueue s x)

theorem inv_start (p : Problem ν ε κ) (starts : List ν) :
    Inv p starts (starts.foldl enqueue {}) := by
  have hmem := Worklist.mem_foldl_enqueue starts {}
  rw [foldl_enqueue]
  refine { nodup := Worklist.nodup_foldl_enqueue starts List.nodup_nil
           once := List.nodup_nil
           queued := Worklist.queued_foldl_enqueue starts fun x hx => absurd hx List.not_mem_nil
           started := fun x hx => (hmem x).mpr (Or.inr hx)
           sound := fun A C hclosed => ⟨fun x hx => ?_, fun k hk => absurd hk List.not_mem_nil,
             fun x hx => absurd hx List.not_mem_nil⟩
           fresh := fun _ x hx => absurd hx List.not_mem_nil
           done := fun x hx hnot => ?_ }
  · exact hclosed.started x (((hmem x).mp hx).resolve_left List.not_mem_nil)
  · exact absurd (Worklist.settled_foldl_enqueue starts hx hnot).1 List.not_mem_nil

/-- **The search meets the least set of nodes, with the least set of keys, that the rules allow.** -/
theorem mem_rounds (hall : Closed p starts {x | x ∈ all} {k | k ∈ allKeys}) {turns fuel : Nat}
    (hturns : all.length < turns) (hfuel : allKeys.length < fuel) :
    let s := rounds p turns fuel (starts.foldl enqueue {})
    Closed p starts {x | x ∈ s.met} {k | k ∈ s.keys} ∧
      ∀ A C, Closed p starts A C → (∀ x ∈ s.met, x ∈ A) ∧ ∀ k ∈ s.keys, k ∈ C := by
  have hstart := inv_start p starts
  have hlength := Worklist.length_foldl_enqueue starts ({} : Worklist.State ν)
  have hsame : starts.foldl enqueue ({} : State ν κ)
      = { starts.foldl enqueue ({} : State ν κ) with changed := false } := by
    rw [foldl_enqueue]
  obtain ⟨s, hs, hinv, hqueue, hchanged⟩ := Inv.rounds (hsame ▸ hstart) hall hturns (by
    rw [foldl_enqueue]
    simp only [List.length_nil] at hlength
    dsimp only
    omega) fuel (by omega)
  intro s'
  rw [show s' = s from hs]
  refine ⟨hinv.closed hqueue hchanged, fun A C hclosed => ?_⟩
  obtain ⟨hmet, hkeys, -⟩ := hinv.sound A C hclosed
  exact ⟨hmet, hkeys⟩

end GatedSearch
