import PimLex.Buffered

/-!
# Reading an inserted key

Insertions and reads agree on the page and the tree beside a block the kernel
answered. When the kernel leaves the query open, the insertion still finds the
page by the host's search, but the read divides the raw answer: it skips pages
and trees when `INVAILD_POS` is past the base array, and looks into one fixed
page when it is not.
-/

namespace PimLex

open Search

/-- The payload of the first entry with the key. -/
def entryFind (es : List (DTYPE × StringPayload)) (key : DTYPE) : Option StringPayload :=
  (es.find? fun e => decide (e.1 = key)).map Prod.snd

/-- Page and tree lookups as exact map lookups. -/
def ReadOps.exact : ReadOps BufPage OptNode where
  findKeyPage page key := entryFind page.entries key
  lookup t key := ((entryFind t.entries key).isSome, entryFind t.entries key)

theorem mem_of_entryFind {es : List (DTYPE × StringPayload)} {k : DTYPE} {v : StringPayload}
    (h : entryFind es k = some v) : (k, v) ∈ es := by
  obtain ⟨e, he, rfl⟩ := Option.map_eq_some_iff.mp h
  have hk := List.find?_some he
  rw [decide_eq_true_iff] at hk
  rw [← hk]
  exact List.mem_of_find?_eq_some he

theorem entryFind_eq_none {es : List (DTYPE × StringPayload)} {k : DTYPE} :
    entryFind es k = none ↔ ∀ v, (k, v) ∉ es := by
  rw [entryFind, Option.map_eq_none_iff, List.find?_eq_none]
  simp only [decide_eq_true_eq]
  exact ⟨fun h v hv => h _ hv rfl, fun h e he hk => h e.2 (by rw [← hk]; exact he)⟩

namespace DramIndex

variable {idx : DramIndex BufPage OptNode} {i q : ℕ} {k : DTYPE} {v : StringPayload}

theorem findBuffered_page (h : entryFind (idx.bufferPages i).entries k = some v) :
    idx.findBuffered .exact i q k = (false, some v) := by
  simp only [findBuffered, ReadOps.exact, h]

theorem findBuffered_tree (h : entryFind (idx.bufferPages i).entries k = none) :
    idx.findBuffered .exact i q k = ((entryFind (idx.optOverflowTrees q).entries k).isSome,
      entryFind (idx.optOverflowTrees q).entries k) := by
  simp only [findBuffered, ReadOps.exact, h]

end DramIndex

namespace BulkInput

variable {b : BulkInput} {nr : ℕ → ℕ} {prev : DramLevel} {pgm : ℕ → DTYPE → ℕ × ℕ}
  {p i : ℕ} {k : DTYPE} {v : StringPayload} {r : Request} {idx : DramIndex BufPage OptNode}

/-- A page or a tree holds the key with this payload. -/
def Holds (idx : DramIndex BufPage OptNode) (k : DTYPE) (v : StringPayload) : Prop :=
  (∃ i, (k, v) ∈ (idx.bufferPages i).entries) ∨ ∃ q, (k, v) ∈ (idx.optOverflowTrees q).entries

/-- The key is one of the base keys. -/
def IsBase (b : BulkInput) (k : DTYPE) : Prop := ∃ i < b.size, b.keys i = k

instance : Decidable (b.IsBase k) := inferInstanceAs (Decidable (∃ i < b.size, b.keys i = k))

/-- The payloads of `insert_payload` sit in the key's own page or in its partition's tree. -/
theorem Buffered.place_of_holds (h : b.Buffered idx) (hown : b.Owns p k)
    (hst : Holds idx k (.ofByte 99)) : k < b.insertBound ∧
      ((k, StringPayload.ofByte 99) ∈ (idx.bufferPages (b.coveredRank k - 1)).entries ∨
        (k, StringPayload.ofByte 99) ∈ (idx.optOverflowTrees p).entries) := by
  rcases hst with ⟨i, hi⟩ | ⟨q, hq⟩
  · obtain ⟨-, hcov, hsucc, hlow, hhigh⟩ := h.page i _ hi
    have hk := lt_insertBound hcov hsucc hhigh
    obtain ⟨-, hsucc', hlow', hhigh'⟩ := hown.block_of_lt_insertBound hk
    rw [block_unique hsucc' hsucc hlow' hhigh' hlow hhigh]
    exact ⟨hk, Or.inl hi⟩
  · rcases h.tree q _ hq with hcall | ⟨-, hq', hk⟩
    · -- the sentinel and the samples carry the payload of `'a'`, insertions that of `'c'`
      exact absurd (StringPayload.ofByte_injective (payload_treeCalls hcall)) (by decide)
    · rw [hown.unique hq']
      exact ⟨hk, Or.inr hq⟩

/-- Below the bound the fallback search finds exactly the base keys. -/
theorem Over.fallback_isBase (hover : b.Over idx) (hpgm : b.Brackets pgm)
    (hk : k < b.insertBound) (nr : ℕ → ℕ) (prev : DramLevel) :
    (∃ m, idx.scanBlock (DramIndex.curKeyOff (idx.fallbackBound (b.level nr prev) pgm k)) k =
      some m) ↔ b.IsBase k := by
  constructor
  · rintro ⟨m, hm⟩
    exact ⟨_, hover.scanBlock_eq_some hm⟩
  · rintro ⟨i, hi, rfl⟩
    have hlast : min b.covered (b.partialTotalSize - 1) < b.partialTotalSize := by
      have hpos := b.covered_pos
      have hcov := b.covered_le
      omega
    have hblock : i / interleave < b.covered := by
      have hlt : i < interleave * min b.covered (b.partialTotalSize - 1) := by
        rw [← not_le, ← partialKeys_le_keys_iff hlast hi]
        exact not_le.mpr hk
      exact (Nat.div_lt_of_lt_mul hlt).trans_le (Nat.min_le_left _ _)
    have hscan := hover.scanBlock_fallback hpgm hi nr prev
    rw [if_pos ⟨hblock, not_clamped_of_lt_insertBound hk⟩] at hscan
    exact ⟨_, hscan⟩

section Read

variable (h : b.Buffered idx) (hr : b.Handed nr r p) (hst : Holds idx r.key (.ofByte 99))
include h hr hst

/-- The search and second look that follow a first look into page `i` and the right tree,
when page or tree has the key. -/
theorem Buffered.getRealPayload_of_first (hscan : idx.directScan r.key r.answer = none)
    (hsize : r.answer < b.size)
    (hhas : (∃ v, (r.key, v) ∈ (idx.bufferPages (r.answer / pageRatio)).entries) ∨
      ∃ v, (r.key, v) ∈ (idx.optOverflowTrees p).entries) :
    ∃ v, idx.getRealPayload .exact (b.level nr prev) pgm false r.dpu r.key r.answer = some v ∧
      Holds idx r.key v := by
  have hpid : (b.level nr prev).dpuIdToPartition r.dpu = p :=
    level_dpuIdToPartition hr.owns.lt hr.hosts
  rw [DramIndex.getRealPayload, hscan]
  simp only [true_and, h.onBase.totalSize, if_pos hsize, hpid]
  cases hpage : entryFind (idx.bufferPages (r.answer / pageRatio)).entries r.key with
  | some v =>
    rw [DramIndex.findBuffered_page hpage]
    exact ⟨v, rfl, Or.inl ⟨_, mem_of_entryFind hpage⟩⟩
  | none =>
    rw [DramIndex.findBuffered_tree hpage]
    cases htree : entryFind (idx.optOverflowTrees p).entries r.key with
    | none =>
      rw [entryFind_eq_none] at hpage htree
      rcases hhas with ⟨v, hv⟩ | ⟨v, hv⟩
      · exact absurd hv (hpage v)
      · exact absurd hv (htree v)
    | some v =>
      -- a tree hit leaves `dram_check` set, so the search runs and may find a base key
      simp only [Option.isSome_some, if_true]
      cases hfall : idx.scanBlock
          (DramIndex.curKeyOff (idx.fallbackBound (b.level nr prev) pgm r.key)) r.key with
      | some m => exact ⟨_, DramIndex.dramRead_found hfall, by rw [h.payloads]; exact hst⟩
      | none =>
        rw [DramIndex.dramRead_missed hfall, h.onBase.totalSize, if_pos hsize, hpid,
          DramIndex.findBuffered_tree hpage, htree]
        exact ⟨v, rfl, Or.inr ⟨p, mem_of_entryFind htree⟩⟩

/-- A key whose block the kernel answered is found. -/
theorem Buffered.getRealPayload_answered (hlow : r.key < b.slice p (b.sliceSize - 1)) :
    ∃ v, idx.getRealPayload .exact (b.level nr prev) pgm false r.dpu r.key r.answer = some v ∧
      Holds idx r.key v := by
  cases hscan : idx.directScan r.key r.answer with
  | some m =>
    exact ⟨_, DramIndex.getRealPayload_direct hscan, by rw [h.payloads]; exact hst⟩
  | none =>
    -- the answered block and the block of the insertion are the same, and so is the page
    obtain ⟨hk, hplace⟩ := h.place_of_holds hr.owns hst
    have hblock := hr.owns.block_eq hlow hr.correct
    have hpage : r.answer / pageRatio = b.coveredRank r.key - 1 := by
      rw [hblock]
      exact Nat.mul_div_cancel_left _ (by decide)
    apply h.getRealPayload_of_first hr hst hscan
    · have hbase := b.interleave_mul_partialTotalSize_le
      have hcov := b.covered_le
      obtain ⟨g, hg, hlt, -⟩ := hr.owns.exists_block hlow
      rw [hblock, hg]
      simp only [interleave] at hbase ⊢
      omega
    · rw [hpage]
      exact hplace.imp (fun hv => ⟨_, hv⟩) fun hv => ⟨_, hv⟩

/-- An open query on a base array that ends before `INVAILD_POS` is left to the search. -/
theorem Buffered.getRealPayload_open (hpgm : b.Brackets pgm) (hopen : r.answer = invaildPos)
    (hsize : b.size ≤ invaildPos) (prev : DramLevel) :
    idx.getRealPayload .exact (b.level nr prev) pgm false r.dpu r.key r.answer =
      if b.IsBase r.key then some (.ofByte 99) else none := by
  have hscan : idx.directScan r.key r.answer = none := if_neg (not_not.mpr hopen)
  have hout : ¬ r.answer < idx.totalSize := by
    rw [hopen, h.onBase.totalSize]
    exact Nat.not_lt.mpr hsize
  have hbase := h.onBase.fallback_isBase hpgm
    (h.place_of_holds hr.owns hst).1 nr prev
  rw [DramIndex.getRealPayload, hscan]
  simp only [hout, and_false, if_false, if_true]
  cases hfall : idx.scanBlock
      (DramIndex.curKeyOff (idx.fallbackBound (b.level nr prev) pgm r.key)) r.key with
  | some m => rw [DramIndex.dramRead_found hfall, if_pos (hbase.mp ⟨m, hfall⟩), h.payloads]
  | none =>
    rw [DramIndex.dramRead_missed hfall, if_neg hout, if_neg fun hb => ?_]
    obtain ⟨m, hm⟩ := hbase.mpr hb
    rw [hfall] at hm
    exact absurd hm (Option.some_ne_none m).symm

omit hst in
/-- When neither the page a read looks into nor the tree has the key, the search is skipped. -/
theorem Buffered.getRealPayload_of_neither (hscan : idx.directScan r.key r.answer = none)
    (hsize : r.answer < b.size)
    (hpage : ∀ v, (r.key, v) ∉ (idx.bufferPages (r.answer / pageRatio)).entries)
    (htree : ∀ v, (r.key, v) ∉ (idx.optOverflowTrees p).entries) :
    idx.getRealPayload .exact (b.level nr prev) pgm false r.dpu r.key r.answer = none := by
  have hpid : (b.level nr prev).dpuIdToPartition r.dpu = p :=
    level_dpuIdToPartition hr.owns.lt hr.hosts
  rw [← entryFind_eq_none] at hpage htree
  rw [DramIndex.getRealPayload, hscan]
  simp only [true_and, h.onBase.totalSize, if_pos hsize, hpid, DramIndex.findBuffered_tree hpage,
    htree]
  rfl

/-- In a buffered state, when a read returns an inserted key. -/
theorem Buffered.read_iff (hpgm : b.Brackets pgm) :
    (∃ v, idx.getRealPayload .exact (b.level nr prev) pgm false r.dpu r.key r.answer = some v ∧
      Holds idx r.key v) ↔
      r.key < b.slice p (b.sliceSize - 1) ∨ (b.size ≤ invaildPos ∧ b.IsBase r.key) ∨
        (invaildPos < b.size ∧ ((idx.bufferPages (invaildPos / pageRatio)).HasKey r.key ∨
          (idx.optOverflowTrees p).HasKey r.key)) := by
  rcases lt_or_ge r.key (b.slice p (b.sliceSize - 1)) with hlow | hge
  · exact iff_of_true (h.getRealPayload_answered hr hst hlow) (Or.inl hlow)
  have hopen := hr.correct.invalid hge
  simp only [not_lt.mpr hge, false_or]
  rcases Nat.lt_or_ge invaildPos b.size with hsize | hsize
  · -- `INVAILD_POS` is a position of the base array and passes the guard
    simp only [Nat.not_le.mpr hsize, hsize, false_and, false_or, true_and]
    have hscan : idx.directScan r.key r.answer = none := if_neg (not_not.mpr hopen)
    rw [BufPage.hasKey_iff, OptNode.hasKey_iff, ← hopen]
    rw [← hopen] at hsize
    refine ⟨fun hread => ?_, h.getRealPayload_of_first hr hst hscan hsize⟩
    by_contra hneither
    obtain ⟨hpage, htree⟩ := not_or.mp hneither
    rw [h.getRealPayload_of_neither hr hscan hsize (not_exists.mp hpage) (not_exists.mp htree)]
      at hread
    obtain ⟨v, hv, -⟩ := hread
    exact absurd hv (Option.some_ne_none v).symm
  · rw [h.getRealPayload_open hr hst hpgm hopen hsize prev]
    simp only [hsize, Nat.not_lt.mpr hsize, false_and, or_false, true_and]
    split_ifs with hbase
    · exact iff_of_true ⟨_, rfl, hst⟩ hbase
    · exact iff_of_false (fun ⟨_, hv, _⟩ => hv.elim) hbase

end Read

/-- After any batches a read of an inserted key returns it exactly when the key is below the
last partial key of its slice; or `INVAILD_POS` lies past the base array and the key is also a
base key; or it lies inside and the key is in the page beside it or in its partition's tree. -/
theorem read_inserted_iff (b : BulkInput) (nr : ℕ → ℕ) (prev : DramLevel)
    (pgm : ℕ → DTYPE → ℕ × ℕ) (batches : List (List Request)) (r : Request) (p : ℕ)
    (hpgm : b.Brackets pgm) (hbatches : ∀ r ∈ batches.flatten, ∃ p, b.Handed nr r p)
    (hr : b.Handed nr r p) :
    let idx := batches.foldl (DramIndex.insertBatch .standing (b.level nr prev) pgm) b.bulkLoad
    Holds idx r.key (.ofByte 99) →
      ((∃ v, idx.getRealPayload .exact (b.level nr prev) pgm false r.dpu r.key r.answer = some v ∧
        Holds idx r.key v) ↔
        r.key < b.slice p (b.sliceSize - 1) ∨ (b.size ≤ invaildPos ∧ b.IsBase r.key) ∨
          (invaildPos < b.size ∧ ((idx.bufferPages (invaildPos / pageRatio)).HasKey r.key ∨
            (idx.optOverflowTrees p).HasKey r.key))) := by
  intro idx hst
  have hidx : idx = b.bulkLoad.insertBatch .standing (b.level nr prev) pgm batches.flatten :=
    List.foldl_flatten.symm
  obtain ⟨hbuf, -, -⟩ := (buffered_bulkLoad b).insertBatch hpgm hbatches prev
  rw [← hidx] at hbuf
  exact hbuf.read_iff hr hst hpgm

/-- The input of the even keys 2 to 2048. -/
def evens : BulkInput := kibiMultiples 2 Nat.two_pos

/-- The keys between the first two blocks' first keys go to partition 0. -/
theorem handed_evens {k : ℕ} (hlow : 2 < k) (hhigh : k < 18) :
    evens.Handed (fun _ => 1) ⟨0, k, invaildPos⟩ 0 where
  above := hlow
  owns := ⟨by decide, hlow.le, fun _ => hhigh⟩
  hosts := ⟨Nat.zero_le _, Nat.zero_lt_one⟩
  correct := ⟨fun _ => rfl, fun hlt => absurd hlt (not_lt.mpr hlow.le)⟩

theorem handed_evens_three : evens.Handed (fun _ => 1) ⟨0, 3, invaildPos⟩ 0 :=
  handed_evens (by decide) (by decide)

/-- Inserting key 3 into the even keys stores it. -/
theorem holds_evens_three :
    Holds (evens.bulkLoad.insertBatch .standing (evens.level (fun _ => 1) .init)
      evens.wholeSlice [⟨0, 3, invaildPos⟩]) 3 (.ofByte 99) := by
  have hover := Over.bulkLoad evens
  rw [DramIndex.insertBatch, List.foldl_cons, List.foldl_nil,
    handed_evens_three.insertPayload_eq hover evens.brackets_wholeSlice, if_pos (by decide),
    placeInPage_room rfl]
  refine Or.inl ⟨evens.coveredRank 3 - 1, ?_⟩
  change _ ∈ (Function.update evens.bulkLoad.bufferPages (evens.coveredRank 3 - 1) _ _).entries
  rw [Function.update_self]
  exact List.mem_singleton_self _

/-- The condition on reading key 3 back. -/
theorem read_inserted_evens_three :
    let r : Request := ⟨0, 3, invaildPos⟩
    let idx := [[r]].foldl
      (DramIndex.insertBatch .standing (evens.level (fun _ => 1) .init) evens.wholeSlice)
      evens.bulkLoad
    ((∃ v, idx.getRealPayload .exact (evens.level (fun _ => 1) .init) evens.wholeSlice false r.dpu
        r.key r.answer = some v ∧ Holds idx r.key v) ↔
      r.key < evens.slice 0 (evens.sliceSize - 1) ∨
        (evens.size ≤ invaildPos ∧ evens.IsBase r.key) ∨
        (invaildPos < evens.size ∧ ((idx.bufferPages (invaildPos / pageRatio)).HasKey r.key ∨
          (idx.optOverflowTrees 0).HasKey r.key))) := by
  intro r idx
  have hbatches : ∀ r' ∈ [[r]].flatten, ∃ p, evens.Handed (fun _ => 1) r' p := by
    rw [List.flatten_cons, List.flatten_nil, List.append_nil]
    exact List.forall_mem_singleton.mpr ⟨0, handed_evens_three⟩
  have hread := read_inserted_iff evens (fun _ => 1) .init evens.wholeSlice [[r]] r 0
    evens.brackets_wholeSlice hbatches handed_evens_three
  apply hread
  rw [List.foldl_cons, List.foldl_nil]
  exact holds_evens_three

/-- Key 3, inserted into the first page of the even keys, is not found. -/
theorem read_evens_three_lost :
    let idx := evens.bulkLoad.insertBatch .standing (evens.level (fun _ => 1) .init)
      evens.wholeSlice [⟨0, 3, invaildPos⟩]
    evens.Brackets evens.wholeSlice ∧ evens.Handed (fun _ => 1) ⟨0, 3, invaildPos⟩ 0 ∧
      Holds idx 3 (.ofByte 99) ∧
      idx.getRealPayload .exact (evens.level (fun _ => 1) .init) evens.wholeSlice false 0 3
        invaildPos = none := by
  refine ⟨evens.brackets_wholeSlice, handed_evens_three, holds_evens_three, ?_⟩
  obtain ⟨hbuf, -, -⟩ := (buffered_bulkLoad evens).insertBatch evens.brackets_wholeSlice
    (List.forall_mem_singleton.mpr ⟨0, handed_evens_three⟩) .init
  have hread := hbuf.getRealPayload_open handed_evens_three holds_evens_three
    evens.brackets_wholeSlice rfl (by decide) .init
  rw [hread, if_neg]
  rintro ⟨i, -, hi⟩
  have heven : 2 * (i + 1) = 3 := hi
  omega

end BulkInput

end PimLex
