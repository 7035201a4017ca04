import PimLex.Common
import PimLex.Search.Bisect
import Mathlib.Data.List.Basic

/-!
# Buffer pages

A page has two parallel arrays, of keys and of payload pointers, filled up to
the same count. Insertion shifts both at the slot an upper-bound search finds,
so a page that starts sorted stays sorted and every key keeps its payload.
-/

namespace PimLex

open Search

/-- `buf_page`: the slots below `page_count`, and what the count always satisfies. -/
structure BufPage where
  bufKey : List DTYPE
  bufPayload : List StringPayload
  length_eq : bufPayload.length = bufKey.length
  length_le : bufKey.length ≤ bufSize

namespace BufPage

/-- `page_count`. -/
def pageCount (page : BufPage) : ℕ := page.bufKey.length

/-- `init`. -/
def init : BufPage := ⟨[], [], rfl, Nat.zero_le _⟩

/-- `buf_key[i]`; slots past the count are not read. -/
def keyAt (page : BufPage) (i : ℕ) : DTYPE := page.bufKey.getD i 0

/-- The slot the three page operations search for. -/
def slot (page : BufPage) (key : DTYPE) : ℕ := upperBound page.keyAt key 0 page.pageCount

/-- `memmove` by one slot from `pl`, then a store into the gap. -/
def shiftIn {α : Type} (l : List α) (pl : ℕ) (a : α) : List α := l.take pl ++ a :: l.drop pl

theorem length_shiftIn {α : Type} (l : List α) (pl : ℕ) (a : α) :
    (shiftIn l pl a).length = l.length + 1 := by
  simp only [shiftIn, List.length_append, List.length_take, List.length_cons, List.length_drop]
  omega

/-- `insert_page`: whether it inserted, and the page afterwards. -/
def insertPage (page : BufPage) (key : DTYPE) (val : StringPayload) : Bool × BufPage :=
  -- a key that is in the page is stored a second time
  if h : page.pageCount ≥ bufSize then (false, page)
  else if page.pageCount = 0 then (true, ⟨[key], [val], rfl, by rw [List.length_singleton]; decide⟩)
  else
    let pl := page.slot key
    (true, ⟨shiftIn page.bufKey pl key, shiftIn page.bufPayload pl val,
      by simp only [length_shiftIn, page.length_eq],
      by rw [length_shiftIn]; exact Nat.not_le.mp h⟩)

/-- The entries of the page in slot order. -/
def entries (page : BufPage) : List (DTYPE × StringPayload) := page.bufKey.zip page.bufPayload

/-- Some slot holds the key. -/
def HasKey (page : BufPage) (k : DTYPE) : Prop := k ∈ page.bufKey

variable {page : BufPage} {key k : DTYPE} {val : StringPayload} {e : DTYPE × StringPayload}

theorem length_entries (page : BufPage) : page.entries.length = page.pageCount := by
  simp [entries, pageCount, page.length_eq]

theorem map_fst_entries (page : BufPage) : page.entries.map Prod.fst = page.bufKey :=
  List.map_fst_zip page.length_eq.ge

theorem hasKey_iff : page.HasKey k ↔ ∃ v, (k, v) ∈ page.entries := by
  rw [HasKey, ← map_fst_entries, List.mem_map]
  exact ⟨fun ⟨e, he, hk⟩ => ⟨e.2, hk ▸ he⟩, fun ⟨v, hv⟩ => ⟨_, hv, rfl⟩⟩

/-- A page is refused exactly when it is full. -/
theorem insertPage_fst : (page.insertPage key val).1 = true ↔ page.pageCount < bufSize := by
  unfold insertPage
  split_ifs <;> simp <;> omega

theorem insertPage_refused (h : (page.insertPage key val).1 = false) :
    (page.insertPage key val).2 = page := by
  unfold insertPage at h ⊢
  split_ifs at h ⊢
  rfl

/-- The two shifts move keys and payloads together. -/
theorem entries_insertPage (h : (page.insertPage key val).1 = true) :
    (page.insertPage key val).2.entries = shiftIn page.entries (page.slot key) (key, val) := by
  have hlt := insertPage_fst.mp h
  unfold insertPage
  rw [dif_neg (Nat.not_le.mpr hlt)]
  split_ifs with h0
  · -- the store into an empty page is a shift by nothing
    have hnil : page.entries = [] := by
      rw [← List.length_eq_zero_iff, length_entries]
      exact h0
    rw [hnil]
    simp [entries, shiftIn]
  · have hlen : (page.bufKey.take (page.slot key)).length =
        (page.bufPayload.take (page.slot key)).length := by
      simp [page.length_eq]
    simp only [entries, shiftIn]
    rw [List.zip_append hlen, List.zip_cons_cons]
    simp only [List.zip_eq_zipWith, List.take_zipWith, List.drop_zipWith]

theorem pageCount_insertPage (h : (page.insertPage key val).1 = true) :
    (page.insertPage key val).2.pageCount = page.pageCount + 1 := by
  rw [← length_entries, entries_insertPage h, length_shiftIn, length_entries]

theorem mem_entries_insertPage (h : (page.insertPage key val).1 = true) :
    e ∈ (page.insertPage key val).2.entries ↔ e ∈ page.entries ∨ e = (key, val) := by
  rw [entries_insertPage h, shiftIn]
  conv_rhs => rw [← List.take_append_drop (page.slot key) page.entries]
  simp only [List.mem_append, List.mem_cons]
  tauto

/-- An accepted key arrives with its payload; every other key keeps its own. -/
theorem entries_insertPage_perm (h : (page.insertPage key val).1 = true) :
    (page.insertPage key val).2.entries.Perm ((key, val) :: page.entries) := by
  rw [entries_insertPage h, shiftIn]
  refine List.perm_middle.trans ?_
  rw [List.take_append_drop]

theorem bufKey_insertPage (h : (page.insertPage key val).1 = true) :
    (page.insertPage key val).2.bufKey = shiftIn page.bufKey (page.slot key) key := by
  rw [← map_fst_entries, entries_insertPage h, ← map_fst_entries page]
  simp only [shiftIn, List.map_append, List.map_cons, List.map_take, List.map_drop]

theorem keyAt_eq_getElem {i : ℕ} (hi : i < page.bufKey.length) :
    page.keyAt i = page.bufKey[i] := by
  rw [keyAt, List.getD_eq_getElem?_getD, List.getElem?_eq_getElem hi]
  rfl

/-- In a sorted page the slot found cuts the keys at or below the key from those above. -/
theorem isCut_slot (hs : page.bufKey.Pairwise (· ≤ ·)) (key : DTYPE) :
    IsCut (fun i => page.keyAt i ≤ key) page.pageCount (page.slot key) := by
  have hmono : ∀ i j, i < j → j < page.pageCount → page.keyAt i ≤ page.keyAt j := by
    intro i j hij hj
    rw [keyAt_eq_getElem (hij.trans hj), keyAt_eq_getElem hj]
    exact List.pairwise_iff_getElem.mp hs i j (hij.trans hj) hj hij
  have hcut := isCut_rank hmono key
  have hslot : page.slot key = rank page.keyAt page.pageCount key :=
    upperBound_eq_rank hcut (Nat.zero_le _) hcut.le le_rfl
  rwa [hslot]

/-- The slot found separates the keys at or below the key from those above. -/
theorem slot_spec (hs : page.bufKey.Pairwise (· ≤ ·)) (key : DTYPE) :
    (∀ k ∈ page.bufKey.take (page.slot key), k ≤ key) ∧
      ∀ k ∈ page.bufKey.drop (page.slot key), key < k := by
  have hcut := isCut_slot hs key
  constructor
  · intro k hk
    obtain ⟨i, hi, rfl⟩ := List.getElem_of_mem hk
    rw [List.length_take, lt_min_iff] at hi
    rw [List.getElem_take, ← keyAt_eq_getElem hi.2]
    exact (hcut.iff i hi.2).mpr hi.1
  · intro k hk
    obtain ⟨i, hi, rfl⟩ := List.getElem_of_mem hk
    rw [List.length_drop] at hi
    rw [List.getElem_drop, ← keyAt_eq_getElem (by omega)]
    have hlt : page.slot key + i < page.pageCount := by
      simp only [pageCount] at hi ⊢
      omega
    exact not_le.mp (mt (hcut.iff _ hlt).mp (by omega))

/-- A sorted page stays sorted. -/
theorem sorted_insertPage (hs : page.bufKey.Pairwise (· ≤ ·))
    (h : (page.insertPage key val).1 = true) :
    (page.insertPage key val).2.bufKey.Pairwise (· ≤ ·) := by
  obtain ⟨hlow, hhigh⟩ := slot_spec hs key
  rw [bufKey_insertPage h, shiftIn]
  have hcut : (page.bufKey.take (page.slot key) ++ page.bufKey.drop (page.slot key)).Pairwise
      (· ≤ ·) := by rwa [List.take_append_drop]
  obtain ⟨hleft, hright, -⟩ := List.pairwise_append.mp hcut
  refine List.pairwise_append.mpr ⟨hleft, List.pairwise_cons.mpr ⟨fun k hk => (hhigh k hk).le,
    hright⟩, fun x hx y hy => ?_⟩
  rcases List.mem_cons.mp hy with rfl | hy
  · exact hlow x hx
  · exact (hlow x hx).trans (hhigh y hy).le

end BufPage

end PimLex
