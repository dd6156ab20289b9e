/-
The set tables hold what was interned.

A key is a self-delimiting dump of the set: every string and every list of handlers stands
behind its length.  The length is cast to 32 bits, so the dump tells sets apart as long as
their strings and lists are shorter than that, and the dump of ids does as long as the ids
are below 2^32.  Within these bounds the entry a table answers with holds the set it was
asked for, found or new, and no entry ever changes.
-/
import Vycor.Lib.Delimited
import Vycor.Proofs.IndexRange
import Vycor.Proofs.SnapshotChannels

namespace Vycor

open Delimited
open SnapshotIO (Short GuardFits)

/-! ### Keys

Each part of a key says where it ends, so a sequence of parts can be read in one
way only. That is Lib/Delimited at the fields of the sets, where the lengths fit
32 bits.
-/

theorem keyU32_inj {v w : UInt32} (h : keyU32 v = keyU32 w) : v = w := by
  have hv : v.toNat % 256 ^ 4 = w.toNat % 256 ^ 4 := by
    rw [← Wire.leValue_leBytes, ← Wire.leValue_leBytes]
    exact congrArg Wire.leValue h
  have := v.toNat_lt
  have := w.toNat_lt
  exact UInt32.toNat_inj.mp (by omega)

theorem keyU32_delimits : Delimits (fun _ => True) keyU32 :=
  Delimits.of_length (fun v _ => Wire.leBytes_length 4 v.toNat) fun _ _ _ _ => keyU32_inj

/-- A count, cast to 32 bits. -/
theorem keyCount_delimits : Delimits (· < 2 ^ 32) fun n => keyU32 (UInt32.ofNat n) := by
  refine Delimits.of_length (fun n _ => Wire.leBytes_length 4 _) ?_
  intro m n hm hn h
  have heq : (UInt32.ofNat m).toNat = (UInt32.ofNat n).toNat := by rw [keyU32_inj h]
  rwa [UInt32.toNat_ofNat_of_lt' hm, UInt32.toNat_ofNat_of_lt' hn] at heq

theorem keyStr_delimits : Delimits Short keyStr := keyCount_delimits.sized

theorem keyBool_delimits : Delimits (fun _ => True) keyBool := by
  refine Delimits.of_length (n := 1) (fun _ _ => rfl) ?_
  intro a b _ _ h
  cases a <;> cases b <;> simp_all [keyBool]

theorem keyStr_ne_nil (s : Str) : keyStr s ≠ [] := by
  intro h
  have hlen := congrArg List.length h
  simp [keyStr, keyU32] at hlen

theorem RaiiKind.toU8_inj {a b : RaiiKind} (h : a.toU8 = b.toU8) : a = b := by
  cases a <;> cases b <;> simp_all [RaiiKind.toU8]
  all_goals (subst_vars; contradiction)

namespace ControlFlowIndex

/-- Every length of the handler fits its 32-bit field. -/
structure HandlerFits (h : CatchHandlerInfo) : Prop where
  caughtType : Short h.caughtType
  location : Short h.location
  bodySummary : Short h.bodySummary

/-- Every length of the scope fits its field. -/
structure ScopeFits (scope : TryCatchScope) : Prop where
  tryLocation : Short scope.tryLocation
  enclosingFunction : Short scope.enclosingFunction
  handlerCount : Short scope.handlers
  handlers : ∀ h ∈ scope.handlers, HandlerFits h

/-- What a handler adds to the key. -/
def handlerKey (h : CatchHandlerInfo) : Str :=
  keyStr h.caughtType ++ keyBool h.isCatchAll ++ keyStr h.location ++ keyStr h.bodySummary

/-- What a scope adds to the key. -/
def scopeKey (scope : TryCatchScope) : Str :=
  keyStr scope.tryLocation ++ keyStr scope.enclosingFunction ++ keyU32 scope.nestingDepth
    ++ keyU32 (UInt32.ofNat scope.handlers.length) ++ scope.handlers.flatMap handlerKey

/-- What a guard adds to the key. -/
def guardKey (g : ConditionalGuard) : Str :=
  keyStr g.conditionText ++ keyStr g.location ++ keyBool g.inTrueBranch ++ keyBool g.isAssertion

/-- What a local adds to the key. -/
def localKey (l : StoredRaiiLocal) : Str :=
  keyU32 (UInt32.ofNat l.typeName) ++ keyU32 (UInt32.ofNat l.varName)
    ++ keyU32 (UInt32.ofNat l.declLocation) ++ [l.kind.toU8]

theorem handlerKey_delimits : Delimits HandlerFits handlerKey := by
  intro a b s t ha hb h
  simp only [handlerKey, List.append_assoc] at h
  obtain ⟨htype, h⟩ := keyStr_delimits ha.caughtType hb.caughtType h
  obtain ⟨hall, h⟩ := keyBool_delimits trivial trivial h
  obtain ⟨hloc, h⟩ := keyStr_delimits ha.location hb.location h
  obtain ⟨hbody, h⟩ := keyStr_delimits ha.bodySummary hb.bodySummary h
  cases a
  cases b
  simp_all

theorem scopeKey_delimits : Delimits ScopeFits scopeKey := by
  intro a b s t ha hb h
  simp only [scopeKey, List.append_assoc] at h
  obtain ⟨htry, h⟩ := keyStr_delimits ha.tryLocation hb.tryLocation h
  obtain ⟨hfun, h⟩ := keyStr_delimits ha.enclosingFunction hb.enclosingFunction h
  obtain ⟨hdepth, h⟩ := keyU32_delimits trivial trivial h
  rw [← List.append_assoc, ← List.append_assoc] at h
  obtain ⟨hhandlers, h⟩ := keyCount_delimits.counted handlerKey_delimits
    ⟨ha.handlerCount, ha.handlers⟩ ⟨hb.handlerCount, hb.handlers⟩ h
  cases a
  cases b
  simp_all

theorem guardKey_delimits : Delimits GuardFits guardKey := by
  intro a b s t ha hb h
  simp only [guardKey, List.append_assoc] at h
  obtain ⟨htext, h⟩ := keyStr_delimits ha.conditionText hb.conditionText h
  obtain ⟨hloc, h⟩ := keyStr_delimits ha.location hb.location h
  obtain ⟨hbranch, h⟩ := keyBool_delimits trivial trivial h
  obtain ⟨hassert, h⟩ := keyBool_delimits trivial trivial h
  cases a
  cases b
  simp_all

theorem localKey_delimits : Delimits (LocalBelow (2 ^ 32)) localKey := by
  intro a b s t ha hb h
  simp only [localKey, List.append_assoc] at h
  obtain ⟨htype, h⟩ := keyCount_delimits ha.1 hb.1 h
  obtain ⟨hvar, h⟩ := keyCount_delimits ha.2.1 hb.2.1 h
  obtain ⟨hloc, h⟩ := keyCount_delimits ha.2.2 hb.2.2 h
  obtain ⟨hkind, h⟩ := List.cons.inj h
  have hkind := RaiiKind.toU8_inj hkind
  cases a
  cases b
  simp_all

/-- **The keys tell scope sets apart whose strings and handler lists fit 32 bits.** -/
theorem scopeSetKey_inj {a b : List TryCatchScope} (ha : ∀ scope ∈ a, ScopeFits scope)
    (hb : ∀ scope ∈ b, ScopeFits scope) (h : scopeSetKey a = scopeSetKey b) : a = b :=
  scopeKey_delimits.flatMap_inj
    (fun scope heq => keyStr_ne_nil scope.tryLocation (by simp_all [scopeKey])) ha hb h

theorem guardSetKey_inj {a b : List ConditionalGuard} (ha : ∀ g ∈ a, GuardFits g)
    (hb : ∀ g ∈ b, GuardFits g) (h : guardSetKey a = guardSetKey b) : a = b :=
  guardKey_delimits.flatMap_inj
    (fun g heq => keyStr_ne_nil g.conditionText (by simp_all [guardKey])) ha hb h

theorem raiiSetKey_inj {a b : List StoredRaiiLocal} (ha : ∀ l ∈ a, LocalBelow (2 ^ 32) l)
    (hb : ∀ l ∈ b, LocalBelow (2 ^ 32) l) (h : raiiSetKey a = raiiSetKey b) : a = b :=
  localKey_delimits.flatMap_inj (fun l heq => by simp [localKey] at heq) ha hb h

end ControlFlowIndex

/-! ### Tables -/

namespace SetTable

variable {α β : Type} {P : α → Prop} {key : List α → Str} {t : SetTable α}

/-- What every element satisfies, and every key leads to the entry it is the key of. -/
structure Keyed (P : α → Prop) (key : List α → Str) (t : SetTable α) : Prop where
  seed : ∃ rest, t.sets = [] :: rest
  fits : ∀ set ∈ t.sets, ∀ a ∈ set, P a
  keyed : ∀ k id, t.ids.lookup k = some id → ∃ set, t.sets[id]? = some set ∧ key set = k

theorem keyed_seeded : Keyed P key {} :=
  ⟨⟨[], rfl⟩, fun set hset a ha => by simp_all, fun k id h => by simp at h⟩

theorem getElem?_of_grown {l m : List β} (h : l <+: m) {i : Nat} {b : β} (hi : l[i]? = some b) :
    m[i]? = some b := by
  obtain ⟨hlt, rfl⟩ := List.getElem?_eq_some_iff.mp hi
  exact List.prefix_iff_getElem?.mp h i hlt

/-- A table never changes an entry and holds the set just interned at its entry. -/
structure Holds (t t' : SetTable α) (id : Nat) (set : List α) : Prop where
  grown : t.sets <+: t'.sets
  entry : t'.sets[id]? = some set

theorem prefix_intern (t : SetTable α) (k : Str) (set : List α) :
    t.sets <+: (t.intern k set).1.sets := by
  unfold SetTable.intern
  split
  · exact List.prefix_rfl
  · split
    · exact List.prefix_rfl
    · exact List.prefix_append _ _

/-- **Interning a set: the entry it gets holds it**, as long as its number fits 32 bits. -/
theorem Keyed.intern (h : t.Keyed P key)
    (hinj : ∀ a b, (∀ x ∈ a, P x) → (∀ x ∈ b, P x) → key a = key b → a = b) {set : List α}
    (hset : ∀ a ∈ set, P a) (hroom : (t.intern (key set) set).1.sets.length ≤ 2 ^ 32) :
    (t.intern (key set) set).1.Keyed P key ∧
      Holds t (t.intern (key set) set).1 (t.intern (key set) set).2 set := by
  unfold SetTable.intern at hroom ⊢
  split at hroom
  · rename_i hnil
    rw [if_pos hnil]
    obtain ⟨rest, hsets⟩ := h.seed
    exact ⟨h, List.prefix_rfl, by simp [hsets, hnil]⟩
  · rename_i hne
    rw [if_neg hne]
    split at hroom
    · rename_i id hid
      obtain ⟨found, hfound, hkey⟩ := h.keyed (key set) id hid
      have hsame := hinj found set (h.fits found (List.mem_of_getElem? hfound)) hset hkey
      exact ⟨h, List.prefix_rfl, by rw [← hsame]; exact hfound⟩
    · dsimp only at hroom ⊢
      rw [List.length_append, List.length_singleton] at hroom
      rw [Nat.mod_eq_of_lt (Nat.lt_of_succ_le hroom)]
      have hnew : (t.sets ++ [set])[t.sets.length]? = some set := by simp
      refine ⟨⟨?_, ?_, ?_⟩, List.prefix_append _ _, hnew⟩
      · obtain ⟨rest, hsets⟩ := h.seed
        exact ⟨rest ++ [set], by rw [hsets, List.cons_append]⟩
      · intro s hs
        rcases List.mem_append.mp hs with hs | hs
        · exact h.fits s hs
        · rw [List.mem_singleton.mp hs]
          exact hset
      · intro k id hid
        have hid' : AList.lookup k (AList.insert (key set) t.sets.length t.ids) = some id := hid
        rw [UMap.lookup_insert_ite] at hid'
        split at hid'
        · rename_i hk
          injection hid' with hid'
          exact ⟨set, by rw [← hid']; exact hnew, hk.symm⟩
        · obtain ⟨found, hfound, hkey⟩ := h.keyed k id hid'
          exact ⟨found, getElem?_of_grown (List.prefix_append _ _) hfound, hkey⟩

/-- Intern the images of the entries after entry 0; the entry each gets, by position. -/
def internAll (key : List α → Str) (image : List β → List α) (t : SetTable α)
    (sets : List (List β)) : SetTable α × List Nat :=
  (sets.drop 1).foldl
    (fun st set => let r := st.1.intern (key (image set)) (image set); (r.1, st.2 ++ [r.2]))
    (t, [0])

theorem prefix_foldl_intern (key : List α → Str) (image : List β → List α)
    (sets : List (List β)) (st : SetTable α × List Nat) :
    st.1.sets <+: (sets.foldl (fun st set =>
      let r := st.1.intern (key (image set)) (image set); (r.1, st.2 ++ [r.2])) st).1.sets :=
  List.foldlRecOn (motive := fun st' : SetTable α × List Nat => st.1.sets <+: st'.1.sets) sets _
    List.prefix_rfl fun st' hst _ _ => hst.trans (prefix_intern st'.1 _ _)

/-- Every entry of the other table has its image where its new entry points. -/
theorem Keyed.internAll (h : t.Keyed P key)
    (hinj : ∀ a b, (∀ x ∈ a, P x) → (∀ x ∈ b, P x) → key a = key b → a = b)
    (image : List β → List α) (himage : image [] = []) {sets : List (List β)}
    (hseed : ∃ rest, sets = [] :: rest) (hsets : ∀ set ∈ sets, ∀ a ∈ image set, P a)
    (hroom : (t.internAll key image sets).1.sets.length ≤ 2 ^ 32) :
    (t.internAll key image sets).1.Keyed P key ∧
      t.sets <+: (t.internAll key image sets).1.sets ∧
      ∀ i set, sets[i]? = some set →
        (t.internAll key image sets).1.sets[(t.internAll key image sets).2.getD i 0]?
          = some (image set) := by
  obtain ⟨rest, rfl⟩ := hseed
  -- The entries handed out so far belong to the sets folded over so far.
  have hfold : ∀ (todo done : List (List β)) (st : SetTable α × List Nat),
      (∀ set ∈ todo, ∀ a ∈ image set, P a) → st.1.Keyed P key → t.sets <+: st.1.sets →
      List.Forall₂ (fun id set => st.1.sets[id]? = some (image set)) st.2 done →
      ∀ r, r = todo.foldl (fun st set =>
          let r := st.1.intern (key (image set)) (image set); (r.1, st.2 ++ [r.2])) st →
        r.1.sets.length ≤ 2 ^ 32 → r.1.Keyed P key ∧ t.sets <+: r.1.sets ∧
          List.Forall₂ (fun id set => r.1.sets[id]? = some (image set)) r.2 (done ++ todo) := by
    intro todo
    induction todo with
    | nil =>
        rintro done st - hst hpre hall r rfl -
        rw [List.append_nil]
        exact ⟨hst, hpre, hall⟩
    | cons set todo ih =>
        rintro done st htodo hst hpre hall r rfl hroom
        obtain ⟨hst', hgrown, hentry⟩ := hst.intern hinj (htodo set List.mem_cons_self)
          ((prefix_foldl_intern key image todo _).length_le.trans hroom)
        rw [List.foldl_cons, ← List.singleton_append, ← List.append_assoc]
        refine ih (done ++ [set]) _ (fun s hs => htodo s (List.mem_cons_of_mem _ hs)) hst'
          (hpre.trans hgrown) ?_ _ rfl hroom
        refine List.rel_append ?_ (List.Forall₂.cons hentry List.Forall₂.nil)
        exact hall.imp fun id s hs => getElem?_of_grown hgrown hs
  obtain ⟨restT, hrestT⟩ := h.seed
  have hstart : List.Forall₂ (fun id set => t.sets[id]? = some (image set)) [0] [[]] :=
    List.Forall₂.cons (by simp [hrestT, himage]) List.Forall₂.nil
  obtain ⟨hkeyed, hpre, hall⟩ := hfold rest [[]] (t, [0])
    (fun set hset => hsets set (List.mem_cons_of_mem _ hset)) h List.prefix_rfl hstart _ rfl hroom
  refine ⟨hkeyed, hpre, ?_⟩
  intro i set hi
  obtain ⟨hlt, rfl⟩ := List.getElem?_eq_some_iff.mp hi
  have hlen := hall.length_eq
  have hid := List.forall₂_iff_get.mp hall |>.2 i (by rw [hlen]; exact hlt) hlt
  have hat : ((t.internAll key image ([] :: rest)).2)[i]?
      = some ((t.internAll key image ([] :: rest)).2.get ⟨i, by
          show i < (t.internAll key image ([] :: rest)).2.length
          exact hlen ▸ hlt⟩) :=
    List.getElem?_eq_getElem _
  rw [List.getD_eq_getElem?_getD, hat]
  exact hid

/-! ### How large a table gets

Behind entry 0 a table has one entry for each key, so no more of them than there are sets that
were handed in.
-/

/-- The entries behind entry 0 are among the sets that satisfy `S`, one for each key. -/
structure From (S : List α → Prop) (key : List α → Str) (t : SetTable α) : Prop where
  sets : ∀ set ∈ t.sets, set = [] ∨ S set
  keys : ∀ k ∈ t.ids.keys, ∃ set, set ≠ [] ∧ S set ∧ key set = k
  count : t.sets.length = t.ids.keys.length + 1

variable {S S' : List α → Prop}

theorem from_seeded : From S key {} :=
  ⟨fun set hset => Or.inl (List.mem_singleton.mp hset), fun k hk => absurd hk (by simp), rfl⟩

theorem From.mono (h : t.From S key) (hS : ∀ set, S set → S' set) : t.From S' key :=
  ⟨fun set hset => (h.sets set hset).imp_right (hS set),
    fun k hk => (h.keys k hk).imp fun set hset => ⟨hset.1, hS set hset.2.1, hset.2.2⟩, h.count⟩

theorem From.intern (h : t.From S key) {set : List α} (hset : set = [] ∨ S set) :
    (t.intern (key set) set).1.From S key := by
  unfold SetTable.intern
  split
  · exact h
  · rename_i hne
    split
    · exact h
    · rename_i hnone
      have hnew : key set ∉ t.ids := AList.lookup_eq_none.mp hnone
      have hkeys : (AList.insert (key set) (t.sets.length % 2 ^ 32) t.ids).keys
          = key set :: t.ids.keys := by
        rw [AList.keys_insert, List.erase_of_not_mem hnew]
      refine ⟨?_, ?_, ?_⟩
      · intro s hs
        rcases List.mem_append.mp hs with hs | hs
        · exact h.sets s hs
        · rw [List.mem_singleton.mp hs]
          exact hset
      · intro k hk
        have hk' : k ∈ (AList.insert (key set) (t.sets.length % 2 ^ 32) t.ids).keys := hk
        rw [hkeys] at hk'
        rcases List.mem_cons.mp hk' with rfl | hk'
        · exact ⟨set, hne, hset.resolve_left hne, rfl⟩
        · exact h.keys k hk'
      · show (t.sets ++ [set]).length
          = (AList.insert (key set) (t.sets.length % 2 ^ 32) t.ids).keys.length + 1
        rw [hkeys, List.length_append, List.length_singleton, h.count, List.length_cons]

theorem From.internAll (h : t.From S key) {image : List β → List α} {sets : List (List β)}
    (himage : ∀ set ∈ sets, image set = [] ∨ S (image set)) :
    (t.internAll key image sets).1.From S key :=
  List.foldlRecOn (motive := fun st : SetTable α × List Nat => st.1.From S key) (sets.drop 1) _ h
    fun _ hst set hset => hst.intern (himage set (List.mem_of_mem_drop hset))

/-- No more entries than different keys, entry 0 apart. -/
theorem From.length_le (h : t.From S key) (keys : List Str)
    (hkeys : ∀ set, set ≠ [] → S set → key set ∈ keys) : t.sets.length ≤ keys.length + 1 := by
  rw [h.count]
  refine Nat.succ_le_succ (List.Nodup.subperm t.ids.nodupKeys ?_).length_le
  intro k hk
  obtain ⟨set, hne, hset, rfl⟩ := h.keys k hk
  exact hkeys set hne hset

end SetTable

end Vycor
