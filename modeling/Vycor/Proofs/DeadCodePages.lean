/-
Pages of dead functions.

A page ends at `start + limit`, computed in 64 bits.  A client that wants everything after some
offset asks for the largest limit there is; the sum then wraps to a negative number, the page
is empty and is called truncated.  As long as the sum fits, a page is the stretch it should be,
and pages of one size asked for one after the other tile the list.
-/
import Vycor.Proofs.DeadCodeQuestions

namespace Vycor

open DeadCodeAnalyzer

/-! ### Stretches of a list -/

/-- Stretches of one size, one after the other, are the front of a list. -/
theorem flatMap_stretches {α : Type} (l : List α) (size count : Nat) :
    ((List.range count).flatMap fun k => (l.drop (k * size)).take size) = l.take (count * size) := by
  induction count with
  | zero => simp
  | succ count ih =>
      rw [List.range_succ, List.flatMap_append, ih, Nat.succ_mul, List.take_add]
      simp

/-- When parts put together come out the same, so does every part. -/
theorem eq_of_flatMap_sublists {ι α : Type} {f g : ι → List α} {ks : List ι}
    (hsub : ∀ k ∈ ks, (f k).Sublist (g k)) (h : ks.flatMap f = ks.flatMap g) : ∀ k ∈ ks, f k = g k := by
  have hle : ∀ ks : List ι, (∀ k ∈ ks, (f k).Sublist (g k)) →
      (ks.flatMap f).length ≤ (ks.flatMap g).length := by
    intro ks hks
    induction ks with
    | nil => exact Nat.le_refl _
    | cons k rest ih =>
        have hk := (hks k List.mem_cons_self).length_le
        have hrest := ih fun k hk => hks k (List.mem_cons_of_mem _ hk)
        rw [List.flatMap_cons, List.flatMap_cons, List.length_append, List.length_append]
        omega
  induction ks with
  | nil => exact fun k hk => absurd hk List.not_mem_nil
  | cons k rest ih =>
      have hk := hsub k List.mem_cons_self
      have hrest := hle rest fun k hk => hsub k (List.mem_cons_of_mem _ hk)
      rw [List.flatMap_cons, List.flatMap_cons] at h
      have hlen := congrArg List.length h
      rw [List.length_append, List.length_append] at hlen
      have hhead : f k = g k := hk.eq_of_length (by have := hk.length_le; omega)
      rw [hhead, List.append_cancel_left_eq] at h
      intro k' hk'
      rcases List.mem_cons.mp hk' with rfl | hk'
      · exact hhead
      · exact ih (fun k hk => hsub k (List.mem_cons_of_mem _ hk)) h k' hk'

/-! ### One page

Where a page ends is a sum of two 64-bit numbers. All that can go wrong is that
it wraps.
-/

section Page

variable {l : List Json} {limit offset : Int}

theorem deadPage_of_fits (hlimit : 0 ≤ limit) (hoffset : 0 ≤ offset)
    (hfits : min offset l.length + limit < 2 ^ 63) :
    deadPage l limit offset
      = ((l.drop offset.toNat).take limit.toNat, min (min offset l.length + limit) l.length) := by
  have hwrap : (min offset l.length + limit).bmod (2 ^ 64) = min offset l.length + limit :=
    Int.bmod_eq_of_le (by omega) (by omega)
  unfold deadPage
  simp only [hwrap]
  refine congrArg (·, _) ?_
  rw [List.drop_take]
  rcases Int.le_total offset l.length with hin | hout
  · rw [min_eq_left hin, List.take_eq_take_iff, List.length_drop]
    omega
  · have hpast : l.drop offset.toNat = [] := List.drop_of_length_le (by omega)
    rw [hpast, min_eq_right hout, Int.toNat_natCast, List.drop_length, List.take_nil, List.take_nil]

/-- The sum wraps: nothing is on the page, and its end lies before the list. -/
theorem deadPage_of_wraps (hlimit : limit < 2 ^ 63) (hoffset : offset < 2 ^ 63)
    (hwraps : 2 ^ 63 ≤ min offset l.length + limit) :
    (deadPage l limit offset).1 = [] ∧ (deadPage l limit offset).2 < 0 := by
  have hwrap : (min offset l.length + limit).bmod (2 ^ 64)
      = min offset l.length + limit - 2 ^ 64 := by
    rw [Int.bmod_eq_iff (by decide)]
    refine ⟨by omega, by omega, ?_⟩
    exact ⟨-1, by omega⟩
  have hneg : min (min offset (l.length : Int) + limit - 2 ^ 64) (l.length : Int) < 0 := by omega
  unfold deadPage
  simp only [hwrap]
  rw [Int.toNat_of_nonpos (Int.le_of_lt hneg)]
  exact ⟨by simp, hneg⟩

end Page

/-! ### Replies -/

/-- The request with a limit and an offset. -/
def pageRequest (args : JsonObject) (limit offset : Int64) : JsonObject :=
  field "limit" (.ofInt limit.toInt) :: field "offset" (.ofInt offset.toInt) :: args

/-- The reply to it. -/
def pageReply (args : JsonObject) (ctx : ToolContext) (limit offset : Int64) : Json :=
  (handleAnalyzeDeadCode (pageRequest args limit offset) ctx).run' none

/-- The members of an object, none of anything else. -/
def Json.members : Json → JsonObject
  | .object members => members
  | _ => []

/-- The dead functions that a reply lists. -/
def deadShown (reply : Json) : List Json := (reply.members.getArray (str "dead")).getD []

/-- The reply says that it left something out. -/
def saysTruncated (reply : Json) : Bool :=
  (reply.members.getBoolean (str "truncated")).getD false

/-- All dead functions that pass the filters of a request. -/
def deadList (args : JsonObject) (ctx : ToolContext) : List Json :=
  let a := deadCodeArgs args ctx
  entriesOf ctx.fixUTF8 a ctx.graph (analyze ctx.graph a.entryPoints a.includeOptimistic) .dead

theorem getInteger_ofInt64 (key : String) (n : Int64) (rest : JsonObject) :
    JsonObject.getInteger (field key (.ofInt n.toInt) :: rest) (str key) = some n.toInt := by
  have hlo := n.le_toInt
  have hhi := n.toInt_lt
  unfold JsonObject.getInteger field Json.ofInt
  rw [JsonObject.get_cons_self]
  simp only [Rat.den_intCast, Rat.num_intCast]
  rw [if_pos ⟨trivial, by omega, by omega⟩]

theorem deadCodeArgs_pageRequest (args : JsonObject) (ctx : ToolContext) (limit offset : Int64) :
    deadCodeArgs (pageRequest args limit offset) ctx
      = { deadCodeArgs args ctx with
          limit := max 0 limit.toInt, offset := max 0 offset.toInt } := by
  have hskip : ∀ key, key ≠ str "limit" → key ≠ str "offset" →
      JsonObject.get (pageRequest args limit offset) key = JsonObject.get args key := by
    intro key hlimit hoffset
    unfold pageRequest field
    rw [JsonObject.get_cons_of_ne (Ne.symm hlimit), JsonObject.get_cons_of_ne (Ne.symm hoffset)]
  have hlimit : JsonObject.getInteger (pageRequest args limit offset) (str "limit")
      = some limit.toInt := getInteger_ofInt64 "limit" limit _
  have hoffset : JsonObject.getInteger (pageRequest args limit offset) (str "offset")
      = some offset.toInt := by
    have htail := getInteger_ofInt64 "offset" offset args
    unfold JsonObject.getInteger pageRequest field at *
    rwa [JsonObject.get_cons_of_ne (by decide)]
  unfold deadCodeArgs entryPointsArg
  rw [hlimit, hoffset]
  unfold JsonObject.getStrings JsonObject.getArray JsonObject.getBoolean JsonObject.getString
  rw [hskip _ (by decide) (by decide), hskip _ (by decide) (by decide),
    hskip _ (by decide) (by decide), hskip _ (by decide) (by decide),
    hskip _ (by decide) (by decide)]
  rfl

/-- What a reply shows is a page of the dead functions of the request. -/
theorem pageReply_shows (args : JsonObject) (ctx : ToolContext) (limit offset : Int64) :
    let page := deadPage (deadList args ctx) (max 0 limit.toInt) (max 0 offset.toInt)
    deadShown (pageReply args ctx limit offset) = page.1 ∧
      saysTruncated (pageReply args ctx limit offset)
        = decide (page.2 < (deadList args ctx).length) := by
  have hreply : pageReply args ctx limit offset
      = answerAfresh ctx.fixUTF8 (deadCodeArgs (pageRequest args limit offset) ctx) ctx.graph := rfl
  rw [hreply, deadCodeArgs_pageRequest]
  constructor <;> rfl

/-! ### Which pages are right -/

/-- The reply lists the stretch it was asked for and tells whether anything comes after. -/
def PageRight (args : JsonObject) (ctx : ToolContext) (limit offset : Int64) : Prop :=
  let first := (max 0 offset.toInt).toNat
  let size := (max 0 limit.toInt).toNat
  deadShown (pageReply args ctx limit offset) = ((deadList args ctx).drop first).take size ∧
    (saysTruncated (pageReply args ctx limit offset) = true
      ↔ first + size < (deadList args ctx).length)

/-- Where the page starts plus the limit fits 64 bits. -/
def SumFits (args : JsonObject) (ctx : ToolContext) (limit offset : Int64) : Prop :=
  min (max 0 offset.toInt) (deadList args ctx).length + max 0 limit.toInt < 2 ^ 63

/-- The pages at the offsets 0, limit, 2 * limit and so on, up to the end of the list. -/
def pagesInTurn (args : JsonObject) (ctx : ToolContext) (limit : Int64) : List Json :=
  let size := limit.toInt.toNat
  (List.range (((deadList args ctx).length + size - 1) / size)).flatMap fun k =>
    deadShown (pageReply args ctx limit (.ofNat (k * size)))

variable {args : JsonObject} {ctx : ToolContext} {limit offset : Int64}

theorem shown_of_fits (h : SumFits args ctx limit offset) :
    deadShown (pageReply args ctx limit offset)
      = ((deadList args ctx).drop (max 0 offset.toInt).toNat).take (max 0 limit.toInt).toNat := by
  rw [(pageReply_shows args ctx limit offset).1,
    deadPage_of_fits (le_max_left _ _) (le_max_left _ _) h]

theorem shown_of_wraps (h : ¬ SumFits args ctx limit offset) :
    deadShown (pageReply args ctx limit offset) = [] ∧
      saysTruncated (pageReply args ctx limit offset) = true := by
  have hlimit := limit.toInt_lt
  have hoffset := offset.toInt_lt
  have hwraps : 2 ^ 63 ≤ min (max 0 offset.toInt) (deadList args ctx).length + max 0 limit.toInt := by
    unfold SumFits at h
    omega
  obtain ⟨hempty, hneg⟩ := deadPage_of_wraps (by omega) (by omega) hwraps
  obtain ⟨hshown, htruncated⟩ := pageReply_shows args ctx limit offset
  rw [hshown, htruncated]
  exact ⟨hempty, decide_eq_true (by omega)⟩

/-- **A page is right unless its sum wraps**: then it is empty and called truncated, with
nothing after what it should have shown. -/
theorem pageRight_iff : PageRight args ctx limit offset ↔ SumFits args ctx limit offset := by
  have hlimit := limit.toInt_lt
  have hoffset := offset.toInt_lt
  constructor
  · intro h
    by_contra hwraps
    obtain ⟨hempty, htruncated⟩ := shown_of_wraps hwraps
    have hmore := h.2.mp htruncated
    have hlen := congrArg List.length (hempty.symm.trans h.1)
    rw [List.length_nil, List.length_take, List.length_drop] at hlen
    unfold SumFits at hwraps
    omega
  · intro h
    refine ⟨shown_of_fits h, ?_⟩
    rw [(pageReply_shows args ctx limit offset).2,
      deadPage_of_fits (le_max_left _ _) (le_max_left _ _) h, decide_eq_true_iff]
    simp only
    omega

theorem pages_tile_iff (hlimit : 0 < limit.toInt) (hlen : (deadList args ctx).length < 2 ^ 63) :
    pagesInTurn args ctx limit = deadList args ctx ↔
      ∀ k : Nat, k * limit.toInt.toNat < (deadList args ctx).length →
        SumFits args ctx limit (.ofNat (k * limit.toInt.toNat)) := by
  obtain ⟨size, hsize⟩ : ∃ size : Nat, limit.toInt = size := ⟨limit.toInt.toNat, by omega⟩
  have hpos : 0 < size := by omega
  unfold pagesInTurn
  rw [hsize, Int.toNat_natCast]
  have hcount : ∀ k, k < ((deadList args ctx).length + size - 1) / size ↔
      k * size < (deadList args ctx).length := by
    intro k
    rw [← Nat.succ_le_iff, Nat.le_div_iff_mul_le hpos, Nat.succ_mul]
    omega
  have hstretches := flatMap_stretches (deadList args ctx) size
    (((deadList args ctx).length + size - 1) / size)
  rw [List.take_of_length_le (by have := mt (hcount _).mpr (Nat.lt_irrefl _); omega)] at hstretches
  have hfirst : ∀ k, k * size < (deadList args ctx).length →
      (max 0 (Int64.ofNat (k * size)).toInt).toNat = k * size := by
    intro k hk
    rw [Int64.toInt_ofNat_of_lt (by omega)]
    omega
  have hpage : ∀ k, k * size < (deadList args ctx).length →
      SumFits args ctx limit (.ofNat (k * size)) →
      deadShown (pageReply args ctx limit (.ofNat (k * size)))
        = ((deadList args ctx).drop (k * size)).take size := by
    intro k hk hfits
    rw [shown_of_fits hfits, hfirst k hk, hsize]
    congr 1
  constructor
  · intro htile k hk
    by_contra hwraps
    have hsame := eq_of_flatMap_sublists
      (f := fun k => deadShown (pageReply args ctx limit (.ofNat (k * size))))
      (g := fun k => ((deadList args ctx).drop (k * size)).take size) (fun j hj => ?_)
      (htile.trans hstretches.symm) k (List.mem_range.mpr ((hcount k).mpr hk))
    · have hlen := congrArg List.length ((shown_of_wraps hwraps).1.symm.trans hsame)
      rw [List.length_nil, List.length_take, List.length_drop] at hlen
      omega
    · by_cases hfits : SumFits args ctx limit (.ofNat (j * size))
      · rw [hpage j ((hcount j).mp (List.mem_range.mp hj)) hfits]
      · rw [(shown_of_wraps hfits).1]
        exact List.nil_sublist _
  · intro hall
    refine Eq.trans ?_ hstretches
    refine List.flatMap_congr fun k hk => ?_
    have hk := (hcount k).mp (List.mem_range.mp hk)
    exact hpage k hk (hall k hk)

/-- A list that fits half the range is tiled by pages of any size. -/
theorem pages_tile (hlimit : 0 < limit.toInt) (hlen : (deadList args ctx).length ≤ 2 ^ 62) :
    pagesInTurn args ctx limit = deadList args ctx := by
  refine (pages_tile_iff hlimit (by omega)).mpr fun k hk => ?_
  have hmax := limit.toInt_lt
  unfold SumFits
  rw [Int64.toInt_ofNat_of_lt (by omega)]
  cases k with
  | zero => omega
  | succ k =>
      rw [Nat.succ_mul] at *
      omega

/-- **Which pages are right and when they tile the list**: a page is right exactly when its sum
fits, and pages of one size tile the list exactly when every sum on the way does, which is
always so for a list that fits half the range. -/
theorem dead_pages_iff (args : JsonObject) (ctx : ToolContext) (limit offset : Int64) :
    (PageRight args ctx limit offset ↔ SumFits args ctx limit offset) ∧
    (0 < limit.toInt → (deadList args ctx).length < 2 ^ 63 →
      (pagesInTurn args ctx limit = deadList args ctx ↔
        ∀ k : Nat, k * limit.toInt.toNat < (deadList args ctx).length →
          SumFits args ctx limit (.ofNat (k * limit.toInt.toNat)))) ∧
    (0 < limit.toInt → (deadList args ctx).length ≤ 2 ^ 62 →
      pagesInTurn args ctx limit = deadList args ctx) :=
  ⟨pageRight_iff, pages_tile_iff, pages_tile⟩

/-- Two functions that nothing calls. -/
def twoUncalled : ToolContext :=
  { graph := (((Script.empty.op (.call (.node { qualifiedName := str "f" } []))).op
      (.call (.node { qualifiedName := str "g" } [])))).graph
    cfIndex := {}, entryPoints := [], fixUTF8 := id }

theorem length_deadList_twoUncalled : (deadList [] twoUncalled).length = 2 := by decide +kernel

/-- The second page of one function. -/
theorem dead_pages_iff_small :
    (PageRight [] twoUncalled 1 1 ↔ SumFits [] twoUncalled 1 1) ∧
    (pagesInTurn [] twoUncalled 1 = deadList [] twoUncalled ↔
      ∀ k : Nat, k * (1 : Int64).toInt.toNat < (deadList [] twoUncalled).length →
        SumFits [] twoUncalled 1 (.ofNat (k * (1 : Int64).toInt.toNat))) ∧
    pagesInTurn [] twoUncalled 1 = deadList [] twoUncalled := by
  obtain ⟨hright, htile, hhalf⟩ := dead_pages_iff [] twoUncalled 1 1
  have hlen := length_deadList_twoUncalled
  exact ⟨hright, htile (by decide) (by omega), hhalf (by decide) (by omega)⟩

/-- **Everything after the first function** is asked for with the largest limit: nothing is
listed, and more is said to be left. -/
theorem dead_page_wraps : ¬ PageRight [] twoUncalled 9223372036854775807 1 := by
  intro h
  have hlen := length_deadList_twoUncalled
  have htruncated : saysTruncated (pageReply [] twoUncalled 9223372036854775807 1) = true := by
    decide +kernel
  have hmore := h.2.mp htruncated
  rw [hlen] at hmore
  exact absurd hmore (by decide)

end Vycor
