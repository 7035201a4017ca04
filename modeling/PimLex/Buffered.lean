import PimLex.Insert

/-!
# What the buffers hold

From bulk load on, a page only holds keys of its own block, and a tree only its
first samples and keys of its own partition. Insertions keep this and take
nothing away, so a stored key stays stored; and a key at or above the guards'
bound is stored only if a tree held it from the start.
-/

namespace PimLex.BulkInput

open Search

variable {b : BulkInput} {nr : ℕ → ℕ} {prev : DramLevel} {pgm : ℕ → DTYPE → ℕ × ℕ}
  {p q i : ℕ} {k : DTYPE} {r : Request} {idx idx' idx'' : DramIndex BufPage OptNode}

/-- The state of the buffers after bulk load and any insertions. -/
structure Buffered (b : BulkInput) (idx : DramIndex BufPage OptNode) : Prop where
  onBase : b.Over idx
  payloads : ∀ i, idx.payloads i = .ofByte 99
  page : ∀ i, ∀ e ∈ (idx.bufferPages i).entries, e.2 = .ofByte 99 ∧ i < b.covered ∧
    i + 1 < b.partialTotalSize ∧ b.partialKeys i ≤ e.1 ∧ e.1 < b.partialKeys (i + 1)
  treeWf : ∀ q, (idx.optOverflowTrees q).Wf ∧ (idx.optOverflowTrees q).HasKey 1
  tree : ∀ q, ∀ e ∈ (idx.optOverflowTrees q).entries,
    e ∈ b.treeCalls q ∨ (e.2 = .ofByte 99 ∧ b.Owns q e.1 ∧ e.1 < b.insertBound)

theorem buffered_bulkLoad (b : BulkInput) : b.Buffered b.bulkLoad where
  onBase := Over.bulkLoad b
  payloads _ := rfl
  page _ _ he := absurd he List.not_mem_nil
  treeWf q := ⟨(b.tree_spec q).1, (b.tree_spec q).2.1⟩
  tree q e he := Or.inl ((b.tree_spec q).2.2 e he)

/-- Nothing is taken away, and what trees gain lies below the bound. -/
structure Extends (b : BulkInput) (idx idx' : DramIndex BufPage OptNode) : Prop where
  page : ∀ i, ∀ e ∈ (idx.bufferPages i).entries, e ∈ (idx'.bufferPages i).entries
  tree : ∀ q, ∀ e ∈ (idx.optOverflowTrees q).entries, e ∈ (idx'.optOverflowTrees q).entries
  treeOnly : ∀ q, ∀ e ∈ (idx'.optOverflowTrees q).entries,
    e ∈ (idx.optOverflowTrees q).entries ∨ e.1 < b.insertBound

theorem Extends.refl (b : BulkInput) (idx : DramIndex BufPage OptNode) : b.Extends idx idx :=
  ⟨fun _ _ h => h, fun _ _ h => h, fun _ _ h => Or.inl h⟩

theorem Extends.trans (h : b.Extends idx idx') (h' : b.Extends idx' idx'') :
    b.Extends idx idx'' :=
  ⟨fun i e he => h'.page i e (h.page i e he), fun q e he => h'.tree q e (h.tree q e he),
    fun q e he => (h'.treeOnly q e he).elim (h.treeOnly q e) Or.inr⟩

/-- The key is in a page of its block, or in the tree of its partition. -/
def Stored (b : BulkInput) (idx : DramIndex BufPage OptNode) (k : DTYPE) : Prop :=
  (∃ i < b.partialTotalSize, b.partialKeys i ≤ k ∧
    (i + 1 < b.partialTotalSize → k < b.partialKeys (i + 1)) ∧ (idx.bufferPages i).HasKey k) ∨
  ∃ p, b.Owns p k ∧ (idx.optOverflowTrees p).HasKey k

theorem Stored.mono (h : b.Stored idx k) (hext : b.Extends idx idx') : b.Stored idx' k := by
  rcases h with ⟨i, hi, hlow, hhigh, hkey⟩ | ⟨p, hp, hkey⟩
  · obtain ⟨v, hv⟩ := BufPage.hasKey_iff.mp hkey
    exact Or.inl ⟨i, hi, hlow, hhigh, BufPage.hasKey_iff.mpr ⟨v, hext.page i _ hv⟩⟩
  · exact Or.inr ⟨p, hp, hkey.mono (hext.tree p)⟩

/-- A tree that holds the sentinel stores every key it is given from there on. -/
theorem insert_standing {t : OptNode} (wf : t.Wf) (hone : t.HasKey 1) (hk : 1 ≤ k)
    (v : StringPayload) :
    (InsertOps.standing.insert t k v).Wf ∧ (InsertOps.standing.insert t k v).HasKey k ∧
      (∀ e ∈ t.entries, e ∈ (InsertOps.standing.insert t k v).entries) ∧
      ∀ e ∈ (InsertOps.standing.insert t k v).entries, e ∈ t.entries ∨ e = (k, v) := by
  obtain ⟨ret, t', hins, hspec⟩ := OptNode.insert_spec wf k v
  have heq : InsertOps.standing.insert t k v = t' := by simp only [InsertOps.standing, hins]
  have hcover : t.Covers k := fun lo hlo => (wf.headKey_le hlo hone).trans hk
  rw [heq]
  exact ⟨hspec.wf, hspec.stored hcover.not_low, hspec.keep, hspec.only⟩

/-- With room in the page the key goes there. -/
theorem placeInPage_room (h : ((idx.bufferPages i).insertPage k (.ofByte 99)).1 = true) :
    idx.placeInPage .standing i p k =
      { idx with
        bufferPages := Function.update idx.bufferPages i
          ((idx.bufferPages i).insertPage k (.ofByte 99)).2 } :=
  if_pos h

/-- A full page sends the key to the tree. -/
theorem placeInPage_full (h : ((idx.bufferPages i).insertPage k (.ofByte 99)).1 = false) :
    idx.placeInPage .standing i p k =
      { idx with
        optOverflowTrees := Function.update idx.optOverflowTrees p
          (InsertOps.standing.insert (idx.optOverflowTrees p) k (.ofByte 99)) } := by
  have hsame : Function.update idx.bufferPages i
      ((idx.bufferPages i).insertPage k (.ofByte 99)).2 = idx.bufferPages := by
    rw [BufPage.insertPage_refused h, Function.update_eq_self]
  apply (if_neg (by simp [InsertOps.standing, h])).trans
  simp only [InsertOps.standing, hsame]

/-- What is stored after a change that adds entries of one key only. -/
theorem stored_iff_of_gain (hext : b.Extends idx idx') (hk : b.Stored idx' k)
    (hpage : ∀ i, ∀ e ∈ (idx'.bufferPages i).entries,
      e ∈ (idx.bufferPages i).entries ∨ e.1 = k)
    (htree : ∀ q, ∀ e ∈ (idx'.optOverflowTrees q).entries,
      e ∈ (idx.optOverflowTrees q).entries ∨ e.1 = k) (x : DTYPE) :
    b.Stored idx' x ↔ b.Stored idx x ∨ x = k := by
  constructor
  · rintro (⟨i, hi, hlow, hhigh, hkey⟩ | ⟨q, hq, hkey⟩)
    · obtain ⟨v, hv⟩ := BufPage.hasKey_iff.mp hkey
      refine (hpage i _ hv).imp_left fun hold => Or.inl ⟨i, hi, hlow, hhigh, ?_⟩
      exact BufPage.hasKey_iff.mpr ⟨v, hold⟩
    · obtain ⟨v, hv⟩ := OptNode.hasKey_iff.mp hkey
      refine (htree q _ hv).imp_left fun hold => Or.inr ⟨q, hq, ?_⟩
      exact OptNode.hasKey_iff.mpr ⟨v, hold⟩
  · rintro (hx | rfl)
    · exact hx.mono hext
    · exact hk

section Place

variable (h : b.Buffered idx) (hown : b.Owns p k) (hk : k < b.insertBound)
include h hown hk

theorem Buffered.place_room
    (hroom : ((idx.bufferPages (b.coveredRank k - 1)).insertPage k (.ofByte 99)).1 = true) :
    let idx' := idx.placeInPage .standing (b.coveredRank k - 1) p k
    b.Buffered idx' ∧ b.Extends idx idx' ∧ ∀ x, b.Stored idx' x ↔ b.Stored idx x ∨ x = k := by
  obtain ⟨hcov, hsucc, hlow, hhigh⟩ := hown.block_of_lt_insertBound hk
  generalize b.coveredRank k - 1 = i at hroom hcov hsucc hlow hhigh
  rw [placeInPage_room hroom]
  have hpages : ∀ j, ∀ e, e ∈ (Function.update idx.bufferPages i
      ((idx.bufferPages i).insertPage k (.ofByte 99)).2 j).entries ↔
        e ∈ (idx.bufferPages j).entries ∨ (j = i ∧ e = (k, .ofByte 99)) := by
    intro j e
    by_cases hj : j = i
    · subst hj
      rw [Function.update_self, BufPage.mem_entries_insertPage hroom]
      simp
    · rw [Function.update_of_ne hj]
      simp [hj]
  have hext : b.Extends idx { idx with
      bufferPages := Function.update idx.bufferPages i
        ((idx.bufferPages i).insertPage k (.ofByte 99)).2 } :=
    ⟨fun j e he => (hpages j e).mpr (Or.inl he), fun _ _ he => he, fun _ _ he => Or.inl he⟩
  refine ⟨⟨?onBase, h.payloads, ?page, h.treeWf, h.tree⟩, hext,
    stored_iff_of_gain hext (Or.inl ⟨i, by omega, hlow, fun _ => hhigh, ?stored⟩) ?gain
      fun _ _ he => Or.inl he⟩
  case onBase => exact h.onBase.buffers _ _ _
  case page =>
    intro j e he
    rcases (hpages j e).mp he with hold | ⟨rfl, rfl⟩
    · exact h.page j e hold
    · exact ⟨rfl, hcov, hsucc, hlow, hhigh⟩
  case stored => exact BufPage.hasKey_iff.mpr ⟨.ofByte 99, (hpages i _).mpr (Or.inr ⟨rfl, rfl⟩)⟩
  case gain =>
    intro j e he
    exact ((hpages j e).mp he).imp_right fun hnew => congrArg Prod.fst hnew.2

/-- The index after an insertion into the tree of partition `p`. -/
theorem Buffered.treeInsert (hone : 1 ≤ k) :
    let idx' := { idx with
      optOverflowTrees := Function.update idx.optOverflowTrees p
        (InsertOps.standing.insert (idx.optOverflowTrees p) k (.ofByte 99)) }
    b.Buffered idx' ∧ b.Extends idx idx' ∧ ∀ x, b.Stored idx' x ↔ b.Stored idx x ∨ x = k := by
  obtain ⟨hwf, hkey, hkeep, honly⟩ :=
    insert_standing (h.treeWf p).1 (h.treeWf p).2 hone (.ofByte 99)
  generalize InsertOps.standing.insert (idx.optOverflowTrees p) k (.ofByte 99) = t at *
  have hgrow : ∀ q, ∀ e ∈ (idx.optOverflowTrees q).entries,
      e ∈ (Function.update idx.optOverflowTrees p t q).entries := by
    intro q e he
    by_cases hq : q = p
    · subst hq
      rw [Function.update_self]
      exact hkeep e he
    · rwa [Function.update_of_ne hq]
  have hwfs : ∀ q, (Function.update idx.optOverflowTrees p t q).Wf :=
    (Function.forall_update_iff _ fun _ t => OptNode.Wf t).mpr ⟨hwf, fun q _ => (h.treeWf q).1⟩
  have hnew : ∀ q, ∀ e ∈ (Function.update idx.optOverflowTrees p t q).entries,
      e ∈ (idx.optOverflowTrees q).entries ∨ (q = p ∧ e = (k, .ofByte 99)) := by
    intro q e he
    by_cases hq : q = p
    · subst hq
      rw [Function.update_self] at he
      exact (honly e he).imp_right fun hek => ⟨rfl, hek⟩
    · rw [Function.update_of_ne hq] at he
      exact Or.inl he
  have hext : b.Extends idx { idx with
      optOverflowTrees := Function.update idx.optOverflowTrees p t } := by
    refine ⟨fun _ _ he => he, hgrow, fun q e he => ?_⟩
    rcases hnew q e he with hold | ⟨rfl, rfl⟩
    · exact Or.inl hold
    · exact Or.inr hk
  refine ⟨⟨?onBase, h.payloads, h.page, ?treeWf, ?tree⟩, hext,
    stored_iff_of_gain hext (Or.inr ⟨p, hown, ?stored⟩) (fun _ _ he => Or.inl he) ?gain⟩
  case onBase => exact h.onBase.buffers _ _ _
  case treeWf =>
    intro q
    -- no insertion takes the sentinel away
    exact ⟨hwfs q, (h.treeWf q).2.mono (hgrow q)⟩
  case tree =>
    intro q e he
    rcases hnew q e he with hold | ⟨rfl, rfl⟩
    · exact h.tree q e hold
    · exact Or.inr ⟨rfl, hown, hk⟩
  case stored =>
    change (Function.update idx.optOverflowTrees p t p).HasKey k
    rwa [Function.update_self]
  case gain =>
    intro q e he
    exact (hnew q e he).imp_right fun hek => congrArg Prod.fst hek.2

theorem Buffered.place_full (hone : 1 ≤ k)
    (hfull : ((idx.bufferPages (b.coveredRank k - 1)).insertPage k (.ofByte 99)).1 = false) :
    let idx' := idx.placeInPage .standing (b.coveredRank k - 1) p k
    b.Buffered idx' ∧ b.Extends idx idx' ∧ ∀ x, b.Stored idx' x ↔ b.Stored idx x ∨ x = k := by
  rw [placeInPage_full hfull]
  exact h.treeInsert hown hk hone

end Place

theorem Handed.one_le (h : b.Handed nr r p) : 1 ≤ r.key :=
  Nat.one_le_iff_ne_zero.mpr (Nat.ne_zero_of_lt h.above)

/-- One request keeps the invariant and takes nothing away; below the bound it stores its
key. -/
theorem Buffered.insertPayload (h : b.Buffered idx) (hpgm : b.Brackets pgm)
    (hr : b.Handed nr r p) (prev : DramLevel) :
    let idx' := idx.insertPayload .standing (b.level nr prev) pgm r
    b.Buffered idx' ∧ b.Extends idx idx' ∧ (r.key < b.insertBound → b.Stored idx' r.key) := by
  rw [hr.insertPayload_eq h.onBase hpgm]
  by_cases hk : r.key < b.insertBound
  · rw [if_pos hk]
    cases hins : ((idx.bufferPages (b.coveredRank r.key - 1)).insertPage r.key (.ofByte 99)).1 with
    | true =>
      obtain ⟨hbuf, hext, hstored⟩ := h.place_room hr.owns hk hins
      exact ⟨hbuf, hext, fun _ => (hstored _).mpr (Or.inr rfl)⟩
    | false =>
      obtain ⟨hbuf, hext, hstored⟩ := h.place_full hr.owns hk hr.one_le hins
      exact ⟨hbuf, hext, fun _ => (hstored _).mpr (Or.inr rfl)⟩
  · -- the guard fails and the request is dropped
    rw [if_neg hk]
    exact ⟨h, Extends.refl b idx, fun hlt => absurd hlt hk⟩

/-- A batch keeps the invariant, takes nothing away and stores its keys below the bound. -/
theorem Buffered.insertBatch (h : b.Buffered idx) (hpgm : b.Brackets pgm) {batch : List Request}
    (hbatch : ∀ r ∈ batch, ∃ p, b.Handed nr r p) (prev : DramLevel) :
    let idx' := idx.insertBatch .standing (b.level nr prev) pgm batch
    b.Buffered idx' ∧ b.Extends idx idx' ∧
      ∀ r ∈ batch, r.key < b.insertBound → b.Stored idx' r.key := by
  induction batch generalizing idx with
  | nil => exact ⟨h, Extends.refl b idx, by simp⟩
  | cons r batch ih =>
    obtain ⟨p, hr⟩ := hbatch r List.mem_cons_self
    obtain ⟨hbuf, hext, hstored⟩ := h.insertPayload hpgm hr prev
    obtain ⟨hbuf', hext', hstored'⟩ := ih hbuf fun r' hr' => hbatch r' (List.mem_cons_of_mem _ hr')
    refine ⟨hbuf', hext.trans hext', fun r' hr' hk => ?_⟩
    rcases List.mem_cons.mp hr' with rfl | hr'
    · exact (hstored hk).mono hext'
    · exact hstored' r' hr' hk

/-- A key at or above the bound is in no page. -/
theorem Buffered.lt_insertBound_of_page (h : b.Buffered idx) {i : ℕ}
    (hkey : (idx.bufferPages i).HasKey k) : k < b.insertBound := by
  obtain ⟨v, hv⟩ := BufPage.hasKey_iff.mp hkey
  obtain ⟨-, hcov, hsucc, -, hhigh⟩ := h.page i _ hv
  exact lt_insertBound hcov hsucc hhigh

/-- A key stored after some insertions is below the bound, or its tree held it before. -/
theorem Stored.lt_or_before (hstored : b.Stored idx' k) (h : b.Buffered idx')
    (hext : b.Extends idx idx') :
    k < b.insertBound ∨ ∃ p, b.Owns p k ∧ (idx.optOverflowTrees p).HasKey k := by
  rcases hstored with ⟨i, -, -, -, hkey⟩ | ⟨p, hp, hkey⟩
  · exact Or.inl (h.lt_insertBound_of_page hkey)
  · obtain ⟨v, hv⟩ := OptNode.hasKey_iff.mp hkey
    rcases hext.treeOnly p _ hv with hold | hlt
    · exact Or.inr ⟨p, hp, OptNode.hasKey_iff.mpr ⟨v, hold⟩⟩
    · exact Or.inl hlt

/-- After a batch a key of it is stored exactly when it is below the last partial key that a
slice covers and that has a successor, or was in its partition's tree before. -/
theorem insertBatch_stored_iff (b : BulkInput) (nr : ℕ → ℕ) (prev : DramLevel)
    (pgm : ℕ → DTYPE → ℕ × ℕ) (earlier batch : List Request) (hpgm : b.Brackets pgm)
    (hearlier : ∀ r ∈ earlier, ∃ p, b.Handed nr r p)
    (hbatch : ∀ r ∈ batch, ∃ p, b.Handed nr r p) :
    let before := b.bulkLoad.insertBatch .standing (b.level nr prev) pgm earlier
    let after := before.insertBatch .standing (b.level nr prev) pgm batch
    ∀ r ∈ batch, b.Stored after r.key ↔
      r.key < b.partialKeys (min (b.sliceSize * nrPartition) (b.partialTotalSize - 1)) ∨
      ∃ p, b.Owns p r.key ∧ (before.optOverflowTrees p).HasKey r.key := by
  intro before after r hr
  obtain ⟨hbefore, -, -⟩ := (buffered_bulkLoad b).insertBatch hpgm hearlier prev
  obtain ⟨hafter, hext, hstored⟩ := hbefore.insertBatch hpgm hbatch prev
  refine ⟨fun hst => hst.lt_or_before hafter hext, ?_⟩
  rintro (hlt | ⟨p, hp, hkey⟩)
  · exact hstored r hr hlt
  · exact Stored.mono (Or.inr ⟨p, hp, hkey⟩) hext

theorem handed_kibi {d : ℕ} (hk : kibi.keys 0 < k) (hp : kibi.Owns p k)
    (hd : Hosts (fun _ => 1) d p) : kibi.Handed (fun _ => 1) ⟨d, k, invaildPos⟩ p :=
  -- with slices of one partial key every query is at or above its slice's last one
  ⟨hk, hp, hd, fun _ => rfl, fun hlt => absurd hp.low (not_le.mpr hlt)⟩

/-- Key 5 goes to the first page of 1024 keys. -/
theorem insertBatch_kibi_five :
    let before := kibi.bulkLoad.insertBatch .standing (kibi.level (fun _ => 1) .init)
      kibi.wholeSlice []
    let after := before.insertBatch .standing (kibi.level (fun _ => 1) .init) kibi.wholeSlice
      [⟨0, 5, invaildPos⟩]
    ∀ r ∈ [(⟨0, 5, invaildPos⟩ : Request)], kibi.Stored after r.key ↔
      r.key < kibi.partialKeys (min (kibi.sliceSize * nrPartition) (kibi.partialTotalSize - 1)) ∨
      ∃ p, kibi.Owns p r.key ∧ (before.optOverflowTrees p).HasKey r.key :=
  insertBatch_stored_iff kibi (fun _ => 1) .init kibi.wholeSlice [] [⟨0, 5, invaildPos⟩]
    kibi.brackets_wholeSlice (by simp)
    (List.forall_mem_singleton.mpr ⟨0, handed_kibi (by decide)
      ⟨by decide, by decide, by decide⟩ ⟨by decide, by decide⟩⟩)

/-- Key 2000, above all 1024 keys, is dropped. -/
theorem insertBatch_kibi_dropped :
    kibi.Brackets kibi.wholeSlice ∧ kibi.Handed (fun _ => 1) ⟨127, 2000, invaildPos⟩ 127 ∧
      ¬ kibi.Stored (kibi.bulkLoad.insertBatch .standing (kibi.level (fun _ => 1) .init)
        kibi.wholeSlice [⟨127, 2000, invaildPos⟩]) 2000 := by
  have hr : kibi.Handed (fun _ => 1) ⟨127, 2000, invaildPos⟩ 127 :=
    handed_kibi (by decide) ⟨by decide, by decide, by decide⟩ (by simp [Hosts, firstDpu])
  refine ⟨kibi.brackets_wholeSlice, hr, fun hst => ?_⟩
  obtain ⟨hafter, hext, -⟩ := (buffered_bulkLoad kibi).insertBatch kibi.brackets_wholeSlice
    (List.forall_mem_singleton.mpr ⟨127, hr⟩) .init
  rcases hst.lt_or_before hafter hext with hlt | ⟨p, -, hkey⟩
  · exact absurd hlt (by decide)
  · -- the samples of every tree are partial keys, at most 1017
    obtain ⟨v, hv⟩ := OptNode.hasKey_iff.mp hkey
    rcases List.mem_cons.mp ((kibi.tree_spec p).2.2 _ hv) with h1 | hmem
    · have hone : 2000 = 1 := congrArg Prod.fst h1
      exact absurd hone (by decide)
    · obtain ⟨j, -, hj⟩ := List.mem_map.mp hmem
      have hkey : 1 * (interleave * min (kibi.sliceSize * p + j * 800)
          (kibi.partialTotalSize - 1) + 1) = 2000 := congrArg Prod.fst hj
      have hlast : kibi.partialTotalSize - 1 = 127 := by decide
      simp only [interleave, hlast] at hkey
      omega

end PimLex.BulkInput
