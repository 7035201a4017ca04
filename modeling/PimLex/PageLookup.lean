import PimLex.Page

/-!
# Search and update in a page

Both take the entry before the slot that an upper-bound search finds, and neither
compares its key with the one asked for. The search besides sets its own copy of
the pointer `val`. So a page that has any entry answers every key, a search never
delivers a payload, and a key below all entries leads in front of the array.
-/

namespace PimLex

open Search

namespace BufPage

/-- What a search or an update leaves: its result, the index at which it used `buf_payload`, and
`*val` and the page afterwards. -/
structure PageResult where
  found : Bool
  index : Option ℤ
  val : StringPayload
  page : BufPage

/-- `*buf_payload[i] = *val`. In front of the array nothing is said about what is overwritten. -/
def storePayload (page : BufPage) (i : ℤ) (val : StringPayload) : BufPage :=
  if 0 ≤ i then
    { page with
      bufPayload := page.bufPayload.set i.toNat val
      length_eq := by rw [List.length_set, page.length_eq] }
  else page

/-- `find_key_page`. -/
def findKeyPage (page : BufPage) (key : DTYPE) (val : StringPayload) : PageResult :=
  if page.pageCount = 0 then ⟨false, none, val, page⟩
  -- `val = buf_payload[pl - 1]` sets the parameter, and what the caller's pointer leads to stays
  else ⟨true, some ((page.slot key : ℤ) - 1), val, page⟩

/-- `update_key_page`. -/
def updateKeyPage (page : BufPage) (key : DTYPE) (val : StringPayload) : PageResult :=
  if page.pageCount = 0 then ⟨false, none, val, page⟩
  else
    ⟨true, some ((page.slot key : ℤ) - 1), val, page.storePayload ((page.slot key : ℤ) - 1) val⟩

/-- A page after a sequence of `insert_page` calls. -/
def filled (calls : List (DTYPE × StringPayload)) : BufPage :=
  calls.foldl (fun page call => (page.insertPage call.1 call.2).2) init

variable {page : BufPage} {k : DTYPE} {val : StringPayload}

theorem sorted_insertPage_snd (hs : page.bufKey.Pairwise (· ≤ ·)) (k : DTYPE)
    (val : StringPayload) : (page.insertPage k val).2.bufKey.Pairwise (· ≤ ·) := by
  cases h : (page.insertPage k val).1 with
  | true => exact sorted_insertPage hs h
  | false => rwa [insertPage_refused h]

theorem sorted_filled (calls : List (DTYPE × StringPayload)) :
    (filled calls).bufKey.Pairwise (· ≤ ·) := by
  -- the induction is on the calls, with any sorted page to start from
  suffices h : ∀ page : BufPage, page.bufKey.Pairwise (· ≤ ·) →
      (calls.foldl (fun page call => (page.insertPage call.1 call.2).2) page).bufKey.Pairwise
        (· ≤ ·) from h init List.Pairwise.nil
  induction calls with
  | nil => exact fun _ hs => hs
  | cons call calls ih => exact fun page hs => ih _ (sorted_insertPage_snd hs call.1 call.2)

/-- A key of the page is the one just before the slot. -/
theorem slot_of_hasKey (hs : page.bufKey.Pairwise (· ≤ ·)) (h : page.HasKey k) :
    ∃ i, page.slot k = i + 1 ∧ i < page.pageCount ∧ page.bufKey[i]? = some k := by
  have hcut := isCut_slot hs k
  have hle := hcut.le
  obtain ⟨j, hj, hjk⟩ := List.getElem_of_mem h
  have hjslot : j < page.slot k := (hcut.iff j hj).mp (by rw [keyAt_eq_getElem hj, hjk])
  obtain ⟨i, hi⟩ : ∃ i, page.slot k = i + 1 := ⟨page.slot k - 1, by omega⟩
  have hlt : i < page.pageCount := by omega
  refine ⟨i, hi, hlt, ?_⟩
  -- the entry before the slot is at most `k`, and at least the entry that is `k`
  have hlow : page.bufKey[i] ≤ k := by
    rw [← keyAt_eq_getElem hlt]
    exact (hcut.iff i hlt).mpr (by omega)
  have hhigh : k ≤ page.bufKey[i] := by
    rcases (show j ≤ i by omega).lt_or_eq with hji | rfl
    · rw [← hjk]
      exact List.pairwise_iff_getElem.mp hs j i hj hlt hji
    · exact hjk.ge
  rw [List.getElem?_eq_getElem hlt, le_antisymm hlow hhigh]

/-- The search as a map operation. -/
structure FindRight (page : BufPage) (k : DTYPE) (result : PageResult) : Prop where
  found : result.found = true ↔ page.HasKey k
  payload : result.found = true → (k, result.val) ∈ page.entries
  unchanged : result.found = true → result.page = page
  index : ∀ i ∈ result.index, 0 ≤ i ∧ i < page.pageCount

/-- The update as a map operation. -/
structure UpdateRight (page : BufPage) (k : DTYPE) (val : StringPayload)
    (result : PageResult) : Prop where
  found : result.found = true ↔ page.HasKey k
  stored : result.found = true → ∃ i, page.bufKey[i]? = some k ∧
    result.page.bufKey = page.bufKey ∧ result.page.bufPayload = page.bufPayload.set i val
  index : ∀ i ∈ result.index, 0 ≤ i ∧ i < page.pageCount

theorem not_hasKey_of_empty (h : page.pageCount = 0) : ¬ page.HasKey k := by
  rw [HasKey, List.length_eq_zero_iff.mp h]
  exact List.not_mem_nil

theorem findRight_iff (hs : page.bufKey.Pairwise (· ≤ ·)) :
    FindRight page k (page.findKeyPage k val) ↔
      page.pageCount = 0 ∨ (k, val) ∈ page.entries := by
  rw [findKeyPage]
  by_cases hempty : page.pageCount = 0
  · rw [if_pos hempty]
    refine iff_of_true ⟨?found, ?payload, fun _ => rfl, ?index⟩ (Or.inl hempty)
    case found => exact iff_of_false Bool.false_ne_true (not_hasKey_of_empty hempty)
    case payload => exact fun h => absurd h Bool.false_ne_true
    case index => exact fun i hi => absurd hi (Option.not_mem_none i)
  · rw [if_neg hempty]
    constructor
    · exact fun h => Or.inr (h.payload rfl)
    · rintro (h | hmem)
      · exact absurd h hempty
      have hkey : page.HasKey k := hasKey_iff.mpr ⟨val, hmem⟩
      obtain ⟨i, hi, hlt, -⟩ := slot_of_hasKey hs hkey
      refine ⟨iff_of_true rfl hkey, fun _ => hmem, fun _ => rfl, fun j hj => ?_⟩
      rw [← Option.some.inj (Option.mem_def.mp hj), hi]
      omega

theorem updateRight_iff (hs : page.bufKey.Pairwise (· ≤ ·)) :
    UpdateRight page k val (page.updateKeyPage k val) ↔
      page.pageCount = 0 ∨ page.HasKey k := by
  rw [updateKeyPage]
  by_cases hempty : page.pageCount = 0
  · rw [if_pos hempty]
    refine iff_of_true ⟨?found, ?stored, ?index⟩ (Or.inl hempty)
    case found => exact iff_of_false Bool.false_ne_true (not_hasKey_of_empty hempty)
    case stored => exact fun h => absurd h Bool.false_ne_true
    case index => exact fun i hi => absurd hi (Option.not_mem_none i)
  · rw [if_neg hempty]
    constructor
    · exact fun h => Or.inr (h.found.mp rfl)
    · rintro (h | hkey)
      · exact absurd h hempty
      obtain ⟨i, hi, hlt, hget⟩ := slot_of_hasKey hs hkey
      have hindex : (page.slot k : ℤ) - 1 = i := by omega
      rw [hindex]
      refine ⟨iff_of_true rfl hkey, fun _ => ⟨i, hget, ?_, ?_⟩, fun j hj => ?_⟩
      · rw [storePayload, if_pos (Int.natCast_nonneg i)]
      · rw [storePayload, if_pos (Int.natCast_nonneg i)]
        rfl
      · rw [← Option.some.inj (Option.mem_def.mp hj)]
        omega

/-- On every page that insertions build, the search is right exactly if the page is empty or what
`val` leads to is the payload of the key already, the update exactly if the page is empty or has
the key. -/
theorem page_lookup_right_iff (calls : List (DTYPE × StringPayload)) (k : DTYPE)
    (val : StringPayload) :
    (FindRight (filled calls) k ((filled calls).findKeyPage k val) ↔
        (filled calls).pageCount = 0 ∨ (k, val) ∈ (filled calls).entries) ∧
      (UpdateRight (filled calls) k val ((filled calls).updateKeyPage k val) ↔
        (filled calls).pageCount = 0 ∨ (filled calls).HasKey k) :=
  ⟨findRight_iff (sorted_filled calls), updateRight_iff (sorted_filled calls)⟩

/-- With 10 as the only entry, 5 is found and updated at index -1. -/
theorem page_of_ten_has_five :
    ¬ (filled [(10, .ofByte 1)]).HasKey 5 ∧
      ((filled [(10, .ofByte 1)]).findKeyPage 5 (.ofByte 0)).found = true ∧
      ((filled [(10, .ofByte 1)]).findKeyPage 5 (.ofByte 0)).index = some (-1) ∧
      ¬ FindRight (filled [(10, .ofByte 1)]) 5
        ((filled [(10, .ofByte 1)]).findKeyPage 5 (.ofByte 0)) ∧
      ¬ UpdateRight (filled [(10, .ofByte 1)]) 5 (.ofByte 0)
        ((filled [(10, .ofByte 1)]).updateKeyPage 5 (.ofByte 0)) := by
  have habsent : ¬ (filled [(10, .ofByte 1)]).HasKey 5 := by
    unfold HasKey
    decide
  refine ⟨habsent, rfl, rfl, fun h => habsent (h.found.mp rfl), fun h => habsent (h.found.mp rfl)⟩

end BufPage

end PimLex
