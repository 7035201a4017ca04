import PimLex.Allocation
import Mathlib.Algebra.BigOperators.Ring.Finset
import Mathlib.Algebra.Group.Action.Defs
import Mathlib.Algebra.Order.BigOperators.Group.List
import Mathlib.Tactic.Linarith

/-!
# The allocation is total

Every change keeps the ids, keeps every count at one or more and moves the sum by
one. The offset that goes down has only counts of one behind it, the offset that
goes up only counts of one in front; so as long as some count is larger, neither
leaves the array. Some count is larger: too many DPUs are more than one for each
partition, and with too few of them there are at least two for each partition on
average, which the loads cannot all round down to one.
-/

namespace PimLex

open Search

section Records

variable {R : Type} {recs recs' E : List (AccessRatio R)} {r r' : AccessRatio R}
  {n n' off i k : ℕ}

/-- The records are those of the 128 partitions, none is without a DPU, and `n` are given
out. -/
structure Allocated (recs : List (AccessRatio R)) (n : ℕ) : Prop where
  ids : (recs.map AccessRatio.partitionId).Perm (List.range nrPartition)
  pos : ∀ r ∈ recs, 1 ≤ r.numDpuPerPartition
  sum : allocated recs = n

theorem Allocated.length (h : Allocated recs n) : recs.length = nrPartition := by
  rw [← List.length_map (f := AccessRatio.partitionId), h.ids.length_eq, List.length_range]

theorem Allocated.ids_nodup (h : Allocated recs n) :
    (recs.map AccessRatio.partitionId).Nodup :=
  h.ids.nodup_iff.mpr List.nodup_range

theorem Allocated.perm (h : Allocated recs n) (hperm : recs'.Perm recs) : Allocated recs' n where
  ids := (hperm.map _).trans h.ids
  pos r hr := h.pos r (hperm.subset hr)
  sum := ((hperm.map _).sum_eq).trans h.sum

theorem Allocated.le (h : Allocated recs n) : nrPartition ≤ n := by
  have hle := List.length_le_sum_of_one_le (recs.map AccessRatio.numDpuPerPartition)
    fun x hx => by
      obtain ⟨r, hr, rfl⟩ := List.mem_map.mp hx
      exact h.pos r hr
  rwa [List.length_map, h.length, ← allocated, h.sum] at hle

/-- More DPUs than partitions: some partition has two. -/
theorem Allocated.exists_large (h : Allocated recs n) (hn : nrPartition < n) :
    ∃ (i : ℕ) (r : AccessRatio R), recs[i]? = some r ∧ 1 < r.numDpuPerPartition := by
  by_contra hnone
  have hle := List.sum_le_card_nsmul (recs.map AccessRatio.numDpuPerPartition) 1 fun x hx => by
    obtain ⟨q, hq, rfl⟩ := List.mem_map.mp hx
    obtain ⟨i, hi⟩ := List.mem_iff_getElem?.mp hq
    exact not_lt.mp fun hlarge => hnone ⟨i, q, hi, hlarge⟩
  rw [List.length_map, h.length, smul_eq_mul, mul_one, ← allocated, h.sum] at hle
  exact absurd hn (not_lt.mpr hle)

/-- Another count in one record. -/
theorem Allocated.replace (h : Allocated recs n) (hold : recs.Perm (r :: E))
    (hnew : recs'.Perm (r' :: E)) (hid : r'.partitionId = r.partitionId)
    (hpos : 1 ≤ r'.numDpuPerPartition)
    (hsum : r'.numDpuPerPartition + n = r.numDpuPerPartition + n') : Allocated recs' n' := by
  have hfront := h.perm hold.symm
  constructor
  case ids =>
    refine ((hnew.map _).trans ?_).trans hfront.ids
    rw [List.map_cons, List.map_cons, hid]
  case pos =>
    intro q hq
    rcases List.mem_cons.mp (hnew.subset hq) with rfl | hq
    · exact hpos
    · exact hfront.pos q (List.mem_cons_of_mem _ hq)
  case sum =>
    have hbefore := hfront.sum
    have hafter := (hnew.map AccessRatio.numDpuPerPartition).sum_eq
    rw [allocated, List.map_cons, List.sum_cons] at hbefore
    rw [List.map_cons, List.sum_cons] at hafter
    rw [allocated, hafter]
    omega

section Move

theorem perm_cons_eraseIdx (h : recs[off]? = some r) : recs.Perm (r :: recs.eraseIdx off) := by
  obtain ⟨hlt, rfl⟩ := List.getElem?_eq_some_iff.mp h
  exact (List.getElem_cons_eraseIdx_perm hlt).symm

theorem perm_moveTo (h : recs[off]? = some r) (hk : k < recs.length) :
    (moveTo recs off k r').Perm (r' :: recs.eraseIdx off) := by
  have hoff := (List.getElem?_eq_some_iff.mp h).1
  exact List.perm_insertIdx _ _ (by rw [List.length_eraseIdx_of_lt hoff]; omega)

/-- A move to the front leaves what is behind. -/
theorem getElem?_moveTo_of_gt (hk : k ≤ off) (hi : off < i) :
    (moveTo recs off k r')[i]? = recs[i]? := by
  rw [moveTo, List.getElem?_insertIdx_of_gt (by omega), List.getElem?_eraseIdx_of_ge (by omega),
    Nat.sub_add_cancel (by omega)]

/-- A move to the end leaves what is in front. -/
theorem getElem?_moveTo_of_lt (hk : off ≤ k) (hi : i < off) :
    (moveTo recs off k r')[i]? = recs[i]? := by
  rw [moveTo, List.getElem?_insertIdx_of_lt (by omega), List.getElem?_eraseIdx_of_lt hi]

theorem record_eq_ok (h : recs[off]? = some r) : record recs off = .ok r := by
  rw [record, h]

theorem exists_record (h : Allocated recs n) (hoff : off < nrPartition) :
    ∃ r, recs[off]? = some r ∧ 1 ≤ r.numDpuPerPartition := by
  rw [← h.length] at hoff
  exact ⟨_, List.getElem?_eq_getElem hoff, h.pos _ (List.getElem_mem hoff)⟩

/-- Where the search of a place from `off` on ends. -/
theorem growPlace_mem (lighter : ℕ → Bool) (hoff : off < nrPartition) :
    off ≤ ((List.range' off (nrPartition - off)).find? lighter).getD (nrPartition - 1) ∧
      ((List.range' off (nrPartition - off)).find? lighter).getD (nrPartition - 1) <
        nrPartition := by
  cases hfind : (List.range' off (nrPartition - off)).find? lighter with
  | none =>
    rw [Option.getD_none]
    omega
  | some k =>
    have hmem := List.mem_range'_1.mp (List.mem_of_find?_eq_some hfind)
    rw [Option.getD_some]
    omega

/-- What taking a DPU does. -/
theorem Allocated.shrinkAt [LinearOrder R] [Div R] [NatCast R] (h : Allocated recs (n + 1))
    (hr : recs[off]? = some r) (hlarge : 1 < r.numDpuPerPartition) :
    ∃ recs', shrinkAt recs off = .ok recs' ∧ Allocated recs' n ∧
      ∀ i, off < i → recs'[i]? = recs[i]? := by
  have hoff : off < recs.length := (List.getElem?_eq_some_iff.mp hr).1
  set r' := r.setNum (r.numDpuPerPartition - 1)
  have hid : r'.partitionId = r.partitionId := rfl
  have hk : ((List.range off).find? (lighterAt recs r')).getD off ≤ off := by
    cases hfind : (List.range off).find? (lighterAt recs r') with
    | none => exact le_rfl
    | some k => exact (List.mem_range.mp (List.mem_of_find?_eq_some hfind)).le
  refine ⟨moveTo recs off _ r', ?_, ?_, fun i hi => getElem?_moveTo_of_gt hk hi⟩
  · rw [PimLex.shrinkAt, record_eq_ok hr]
    exact if_neg (Nat.not_le.mpr hlarge)
  · apply h.replace (perm_cons_eraseIdx hr) (perm_moveTo hr (hk.trans_lt hoff)) hid
    · exact Nat.le_sub_one_of_lt hlarge
    · change r.numDpuPerPartition - 1 + (n + 1) = _
      omega

/-- What giving a DPU does. -/
theorem Allocated.growAt [LinearOrder R] [Div R] [NatCast R] (h : Allocated recs n)
    (hr : recs[off]? = some r) :
    ∃ recs', growAt recs off = .ok recs' ∧ Allocated recs' (n + 1) ∧
      ∀ i, i < off → recs'[i]? = recs[i]? := by
  have hoff : off < recs.length := (List.getElem?_eq_some_iff.mp hr).1
  have hlen := h.length
  set r' := r.setNum (r.numDpuPerPartition + 1)
  have hid : r'.partitionId = r.partitionId := rfl
  obtain ⟨hle, hlt⟩ := growPlace_mem (lighterAt (recs.set off r') r') (hlen ▸ hoff)
  refine ⟨moveTo recs off _ r', ?_, ?_, fun i hi => getElem?_moveTo_of_lt hle hi⟩
  · rw [PimLex.growAt, record_eq_ok hr]
    rfl
  · apply h.replace (perm_cons_eraseIdx hr) (perm_moveTo hr (hlen ▸ hlt)) hid
    · exact Nat.le_add_left _ _
    · change r.numDpuPerPartition + 1 + n = _
      omega

end Move

section Offsets

/-- A larger count and a count of one are not at the same place. -/
theorem ne_of_large {q : AccessRatio R} (hr : recs[i]? = some r) (hq : recs[k]? = some q)
    (hlarge : 1 < r.numDpuPerPartition) (hone : q.numDpuPerPartition = 1) : i ≠ k := by
  rintro rfl
  rw [hr, Option.some.injEq] at hq
  rw [hq, hone] at hlarge
  exact lt_irrefl 1 hlarge

/-- With a larger count in front or at it, the offset goes down to the last such count. -/
theorem lowerOff_spec (h : Allocated recs n) (hoff : off < nrPartition) (hi : i ≤ off)
    (hr : recs[i]? = some r) (hlarge : 1 < r.numDpuPerPartition) :
    ∃ off' r', lowerOff recs off = .ok off' ∧ off' ≤ off ∧ recs[off']? = some r' ∧
      1 < r'.numDpuPerPartition ∧
      ∀ m q, off' < m → m ≤ off → recs[m]? = some q → q.numDpuPerPartition = 1 := by
  induction off with
  | zero =>
    obtain rfl := Nat.le_zero.mp hi
    refine ⟨0, r, ?_, le_rfl, hr, hlarge, fun m q hm hm' => by omega⟩
    rw [lowerOff, record_eq_ok hr]
    exact if_neg hlarge.ne'
  | succ off ih =>
    obtain ⟨q, hq, hpos⟩ := exists_record h hoff
    have hstep : lowerOff recs (off + 1) =
        if q.numDpuPerPartition = 1 then lowerOff recs off else .ok (off + 1) := by
      rw [lowerOff, record_eq_ok hq]
      rfl
    by_cases hone : q.numDpuPerPartition = 1
    · -- the larger count is further in front
      have hne := ne_of_large hr hq hlarge hone
      have hlt : i ≤ off := by omega
      obtain ⟨off', r', hlower, hle, hr', hlarge', hones⟩ := ih (by omega) hlt
      refine ⟨off', r', by rw [hstep, if_pos hone, hlower], by omega, hr', hlarge', ?_⟩
      intro m s hm hm' hs
      rcases Nat.le_succ_iff.mp hm' with hle' | rfl
      · exact hones m s hm hle' hs
      · rw [hq, Option.some.injEq] at hs
        rw [← hs, hone]
    · refine ⟨off + 1, q, by rw [hstep, if_neg hone], le_rfl, hq, by omega, ?_⟩
      exact fun m s hm hm' => by omega

/-- With a larger count at it or behind, the offset goes up to the first such count. -/
theorem raiseOff_spec (h : Allocated recs n) {left : ℕ} (hleft : off + left = nrPartition)
    (hi : off ≤ i) (hr : recs[i]? = some r) (hlarge : 1 < r.numDpuPerPartition) :
    ∃ off' r', raiseOff recs left off = .ok off' ∧ off ≤ off' ∧ recs[off']? = some r' ∧
      1 < r'.numDpuPerPartition ∧
      ∀ m q, off ≤ m → m < off' → recs[m]? = some q → q.numDpuPerPartition = 1 := by
  have hlt := (List.getElem?_eq_some_iff.mp hr).1
  rw [h.length] at hlt
  induction left generalizing off with
  | zero => omega
  | succ left ih =>
    obtain ⟨q, hq, hpos⟩ := exists_record h (show off < nrPartition by omega)
    have hstep : raiseOff recs (left + 1) off =
        if q.numDpuPerPartition = 1 then raiseOff recs left (off + 1) else .ok off := by
      rw [raiseOff, record_eq_ok hq]
      rfl
    by_cases hone : q.numDpuPerPartition = 1
    · -- the larger count is further behind
      have hne := ne_of_large hr hq hlarge hone
      have hnext : off + 1 ≤ i := by omega
      obtain ⟨off', r', hraise, hle, hr', hlarge', hones⟩ := ih (by omega) hnext
      refine ⟨off', r', by rw [hstep, if_pos hone, hraise], by omega, hr', hlarge', ?_⟩
      intro m s hm hm' hs
      rcases hm.eq_or_lt with rfl | hlt
      · rw [hq, Option.some.injEq] at hs
        rw [← hs, hone]
      · exact hones m s hlt hm' hs
    · refine ⟨off, q, by rw [hstep, if_neg hone], le_rfl, hq, by omega, ?_⟩
      exact fun m s hm hm' => by omega

/-- Behind the offset there are only counts of one. -/
def OnesBehind (recs : List (AccessRatio R)) (off : ℕ) : Prop :=
  ∀ i r, off < i → recs[i]? = some r → r.numDpuPerPartition = 1

/-- In front of the offset there are only counts of one. -/
def OnesBefore (recs : List (AccessRatio R)) (off : ℕ) : Prop :=
  ∀ i r, i < off → recs[i]? = some r → r.numDpuPerPartition = 1

/-- Behind the last record there is nothing. -/
theorem onesBehind_last (hlen : recs.length = nrPartition) :
    OnesBehind recs (nrPartition - 1) := by
  intro i r hi hr
  have hlt := (List.getElem?_eq_some_iff.mp hr).1
  rw [hlen] at hlt
  exact absurd hi (not_lt.mpr (Nat.le_sub_one_of_lt hlt))

end Offsets

end Records

section Loops

variable {recs : List (AccessRatio ℚ)} {n off : ℕ}

/-- A pass of the loop that takes DPUs back. -/
theorem Allocated.shrinkPass (h : Allocated recs (n + 1)) (hn : nrPartition ≤ n)
    (hoff : off < nrPartition) (hones : OnesBehind recs off) :
    ∃ off' r recs', lowerOff recs off = .ok off' ∧ off' < nrPartition ∧ recs[off']? = some r ∧
      1 < r.numDpuPerPartition ∧ PimLex.shrinkAt recs off' = .ok recs' ∧ Allocated recs' n ∧
      OnesBehind recs' off' := by
  -- too many DPUs are given out, so some partition has a second one to take back
  obtain ⟨i, r, hr, hlarge⟩ := h.exists_large (by omega)
  have hi : i ≤ off := by
    by_contra hgt
    rw [hones i r (not_le.mp hgt) hr] at hlarge
    exact absurd hlarge (lt_irrefl 1)
  obtain ⟨off₁, r₁, hlower, hle, hr₁, hlarge₁, hones₁⟩ := lowerOff_spec h hoff hi hr hlarge
  obtain ⟨recs₁, hshrink, halloc, hframe⟩ := h.shrinkAt hr₁ hlarge₁
  refine ⟨off₁, r₁, recs₁, hlower, hle.trans_lt hoff, hr₁, hlarge₁, hshrink, halloc, ?_⟩
  -- the record moves to the front, so behind the offset nothing has changed
  intro m q hm hq
  rw [hframe m hm] at hq
  rcases Nat.lt_or_ge off m with hgt | hle'
  · exact hones m q hgt hq
  · exact hones₁ m q hm hle' hq

/-- A pass of the loop that gives DPUs. -/
theorem Allocated.growPass (h : Allocated recs n) (hones : OnesBefore recs off)
    (hlarge : ∃ (i : ℕ) (r : AccessRatio ℚ), recs[i]? = some r ∧ 1 < r.numDpuPerPartition) :
    ∃ off' r recs', raiseOff recs (nrPartition - off) off = .ok off' ∧ recs[off']? = some r ∧
      1 < r.numDpuPerPartition ∧ OnesBefore recs off' ∧ PimLex.growAt recs off' = .ok recs' ∧
      Allocated recs' (n + 1) ∧ OnesBefore recs' off' := by
  obtain ⟨i, r, hr, hlarge⟩ := hlarge
  have hi : off ≤ i := by
    by_contra hlt
    rw [hones i r (not_le.mp hlt) hr] at hlarge
    exact absurd hlarge (lt_irrefl 1)
  have hlen := (List.getElem?_eq_some_iff.mp hr).1
  rw [h.length] at hlen
  have hleft : off + (nrPartition - off) = nrPartition := by omega
  obtain ⟨off₁, r₁, hraise, hle, hr₁, hlarge₁, hones₁⟩ := raiseOff_spec h hleft hi hr hlarge
  obtain ⟨recs₁, hgrow, halloc, hframe⟩ := h.growAt hr₁
  have hbefore : OnesBefore recs off₁ := by
    intro m q hm hq
    rcases Nat.lt_or_ge m off with hlt | hge
    · exact hones m q hlt hq
    · exact hones₁ m q hge hm hq
  refine ⟨off₁, r₁, recs₁, hraise, hr₁, hlarge₁, hbefore, hgrow, halloc, ?_⟩
  -- the record moves to the end, so in front of the offset nothing has changed
  intro m q hm hq
  rw [hframe m hm] at hq
  exact hbefore m q hm hq

theorem shrinkLoop_ok (hn : nrPartition ≤ n) (passes : ℕ) (hoff : off < nrPartition)
    (h : Allocated recs (n + passes)) (hones : OnesBehind recs off) :
    ∃ recs', shrinkLoop passes off recs = .ok recs' ∧ Allocated recs' n := by
  induction passes generalizing off recs with
  | zero => exact ⟨recs, rfl, h⟩
  | succ passes ih =>
    obtain ⟨off₁, r₁, recs₁, hlower, hoff₁, -, -, hshrink, halloc, hbehind⟩ :=
      Allocated.shrinkPass h (hn.trans (Nat.le_add_right n passes)) hoff hones
    obtain ⟨recs₂, hrest, hdone⟩ := ih hoff₁ halloc hbehind
    refine ⟨recs₂, ?_, hdone⟩
    rw [shrinkLoop, hlower]
    change (shrinkAt recs off₁ >>= _) = _
    rw [hshrink]
    exact hrest

theorem growLoop_ok (passes : ℕ) (h : Allocated recs n) (hones : OnesBefore recs off)
    (hlarge : ∃ (i : ℕ) (r : AccessRatio ℚ), recs[i]? = some r ∧ 1 < r.numDpuPerPartition) :
    ∃ recs', growLoop passes off recs = .ok recs' ∧ Allocated recs' (n + passes) := by
  induction passes generalizing off recs n with
  | zero => exact ⟨recs, rfl, h⟩
  | succ passes ih =>
    obtain ⟨off₁, r₁, recs₁, hraise, -, -, -, hgrow, halloc, hbefore⟩ :=
      h.growPass hones hlarge
    -- from the first DPU given on, there are more of them than partitions
    have hnext := halloc.exists_large (Nat.lt_succ_of_le h.le)
    obtain ⟨recs₂, hrest, hdone⟩ := ih halloc hbefore hnext
    refine ⟨recs₂, ?_, by rwa [Nat.add_right_comm] at hdone⟩
    rw [growLoop, hraise]
    change (growAt recs off₁ >>= _) = _
    rw [hgrow]
    exact hrest

theorem maxDpuNumOff_lt (recs : List (AccessRatio ℚ)) : maxDpuNumOff recs < nrPartition := by
  have hfold : ∀ (l : List ℕ) (acc : ℕ × ℕ), acc.2 < nrPartition → (∀ i ∈ l, i < nrPartition) →
      (l.foldl (maxDpuNumStep recs) acc).2 < nrPartition := by
    intro l
    induction l with
    | nil => exact fun _ hacc _ => hacc
    | cons i l ih =>
      intro acc hacc hl
      refine ih _ ?_ fun j hj => hl j (List.mem_cons_of_mem _ hj)
      rw [maxDpuNumStep]
      split
      · split_ifs
        · exact hl i List.mem_cons_self
        · exact hacc
      · exact hacc
  exact hfold _ _ (by decide) fun i hi => List.mem_range.mp hi

theorem adjustLoop_ok (passes : ℕ) (h : Allocated recs n) (hoff : off < nrPartition) :
    ∃ recs', adjustLoop passes off recs = .ok recs' ∧ Allocated recs' n := by
  induction passes generalizing off recs with
  | zero => exact ⟨recs, rfl, h⟩
  | succ passes ih =>
    obtain ⟨first, hfirst, -⟩ := exists_record h (show 0 < nrPartition by decide)
    obtain ⟨last, hlast, -⟩ := exists_record h hoff
    obtain ⟨off₁, hoff₁, hnext⟩ : ∃ off₁ < nrPartition,
        (if last.staysBelow first then off else maxDpuNumOff recs) = off₁ := by
      refine ⟨_, ?_, rfl⟩
      split_ifs
      · exact hoff
      · exact maxDpuNumOff_lt recs
    obtain ⟨last₁, hlast₁, hpos⟩ := exists_record h hoff₁
    rw [adjustLoop, record_eq_ok hfirst, record_eq_ok hlast]
    change ∃ recs', (record recs (if last.staysBelow first then off else maxDpuNumOff recs) >>=
      fun last => if last.staysBelow first then _ else _) = _ ∧ _
    rw [hnext, record_eq_ok hlast₁]
    change ∃ recs', (if last₁.staysBelow first then _ else _) = _ ∧ _
    -- a pass takes a DPU at the offset and gives it to the first record, or ends the loop
    by_cases hbelow : last₁.staysBelow first
    · have hlarge : 1 < last₁.numDpuPerPartition := by
        have hne := (of_decide_eq_true hbelow).1
        omega
      have hn := h.le
      obtain ⟨recs₁, hshrink, halloc₁, -⟩ := Allocated.shrinkAt (n := n - 1)
        (by rwa [Nat.sub_add_cancel (by omega)]) hlast₁ hlarge
      obtain ⟨first₁, hfirst₁, -⟩ := exists_record halloc₁ (show 0 < nrPartition by decide)
      obtain ⟨recs₂, hgrow, halloc₂, -⟩ := halloc₁.growAt hfirst₁
      rw [Nat.sub_add_cancel (by omega)] at halloc₂
      obtain ⟨recs₃, hrest, hdone⟩ := ih halloc₂ hoff₁
      refine ⟨recs₃, ?_, hdone⟩
      rw [if_pos hbelow, hshrink]
      change (growAt recs₁ 0 >>= _) = _
      rw [hgrow]
      exact hrest
    · exact ⟨recs, if_neg hbelow, h⟩

end Loops

namespace PartitionAccess

variable {pa : PartitionAccess ℚ} {avg ratioToDpu total : ℕ}

theorem length_recordRatio {R : Type} (pa : PartitionAccess R) :
    pa.recordRatio.length = nrPartition := by
  rw [← List.length_map (f := AccessRatio.partitionId), pa.ids, List.length_range]

theorem allocated_loaded (pa : PartitionAccess ℚ) (avg ratioToDpu : ℕ) :
    Allocated (pa.loaded avg ratioToDpu) (allocated (pa.loaded avg ratioToDpu)) where
  ids := by
    rw [← pa.ids]
    refine List.Perm.of_eq (List.ext_getElem? fun i => ?_)
    rw [List.getElem?_map, loaded, List.getElem?_mapIdx, List.getElem?_map, Option.map_map]
    rfl
  pos r hr := by
    obtain ⟨i, hi, rfl⟩ := List.mem_mapIdx.mp hr
    exact Nat.le_max_right _ _
  sum := rfl

/-- Loads of two DPUs for each partition on average do not all round down to one. -/
theorem exists_large_loaded (hsum : ∑ i ∈ Finset.range nrPartition, pa.accessNum i = total)
    (htotal : nrPartition ≤ total) (htwo : 2 ≤ ratioToDpu) :
    ∃ (i : ℕ) (r : AccessRatio ℚ), (pa.loaded (total / nrPartition) ratioToDpu)[i]? = some r ∧
      1 < r.numDpuPerPartition := by
  by_contra hnone
  have havg : 0 < total / nrPartition := Nat.div_pos htotal (by decide)
  have hsmall : ∀ i ∈ Finset.range nrPartition,
      pa.accessNum i * ratioToDpu < 2 * (total / nrPartition) := by
    intro i hi
    rw [Finset.mem_range, ← pa.length_recordRatio] at hi
    by_contra hbig
    refine hnone ⟨i, _, by rw [loaded, List.getElem?_mapIdx, List.getElem?_eq_getElem hi]; rfl, ?_⟩
    apply lt_of_lt_of_le _ (Nat.le_max_left _ 1)
    rw [← Nat.succ_le_iff, Nat.le_floor_iff' (by decide), div_mul_eq_mul_div,
      le_div_iff₀ (by exact_mod_cast havg)]
    exact_mod_cast not_lt.mp hbig
  have hlt := Finset.sum_lt_sum_of_nonempty ⟨0, Finset.mem_range.mpr (by decide)⟩ hsmall
  rw [← Finset.sum_mul, hsum, Finset.sum_const, Finset.card_range, smul_eq_mul] at hlt
  have hle : nrPartition * (total / nrPartition) ≤ total := Nat.mul_div_le _ _
  have hmul : total * 2 ≤ total * ratioToDpu := Nat.mul_le_mul_left _ htwo
  simp only [nrPartition] at hlt hle
  omega

/-- With more DPUs than partitions some partition has two of them before any is moved. -/
theorem exists_large_sorted (byRatio : AccessRatio.LoadSort ℚ) {nrDpus : ℕ}
    (hdvd : nrPartition ∣ nrDpus)
    (hsum : ∑ i ∈ Finset.range nrPartition, pa.accessNum i = total)
    (htotal : nrPartition ≤ total) (hlt : nrPartition < nrDpus) :
    ∃ (i : ℕ) (r : AccessRatio ℚ),
      (byRatio.sort (pa.loaded (total / nrPartition) (nrDpus / nrPartition)))[i]? = some r ∧
        1 < r.numDpuPerPartition := by
  have htwo : 2 ≤ nrDpus / nrPartition := by
    obtain ⟨c, rfl⟩ := hdvd
    rw [Nat.mul_div_cancel_left _ (by decide)]
    simp only [nrPartition] at hlt
    omega
  obtain ⟨i, r, hr, hmore⟩ := pa.exists_large_loaded hsum htotal htwo
  obtain ⟨j, hj⟩ := List.mem_iff_getElem?.mp
    ((byRatio.perm _).mem_iff.mpr (List.mem_of_getElem? hr))
  exact ⟨j, r, hj, hmore⟩

end PartitionAccess

/-- The balanced array gives out the DPUs there are. -/
theorem balance_ok {recs : List (AccessRatio ℚ)} {n nrDpus : ℕ} (h : Allocated recs n)
    (hle : nrPartition ≤ nrDpus)
    (hlarge : nrPartition < nrDpus →
      ∃ (i : ℕ) (r : AccessRatio ℚ), recs[i]? = some r ∧ 1 < r.numDpuPerPartition) :
    ∃ recs', balance nrDpus n recs = .ok recs' ∧ Allocated recs' nrDpus := by
  rw [balance]
  split_ifs with hmany hfew
  · -- behind the last record there is nothing
    refine shrinkLoop_ok hle _ (by decide) (by rwa [Nat.add_sub_cancel' hmany.le]) ?_
    intro i r hi hr
    have hlen := (List.getElem?_eq_some_iff.mp hr).1
    rw [h.length] at hlen
    simp only [nrPartition] at hi hlen
    omega
  · obtain ⟨recs', hgrow, halloc⟩ := growLoop_ok (nrDpus - n) h
      (fun i r hi => absurd hi (Nat.not_lt_zero i)) (hlarge (h.le.trans_lt hfew))
    exact ⟨recs', hgrow, by rwa [Nat.add_sub_cancel' hfew.le] at halloc⟩
  · obtain rfl : n = nrDpus := by omega
    exact ⟨recs, rfl, h⟩

/-- Whatever the accesses, and however the sorts order records they cannot tell apart, the
allocation goes through: no offset leaves the array and no count goes below one, the records
end in the order of the partitions, and exactly the DPUs there are have been given out. -/
theorem calculatePartitionSkew_ok (byRatio : AccessRatio.LoadSort ℚ)
    (byPid : StdSort (AccessRatio.cmpPid (R := ℚ))) (pa : PartitionAccess ℚ) (nrDpus total : ℕ)
    (hpos : 0 < nrDpus) (hdvd : nrPartition ∣ nrDpus)
    (hsum : ∑ i ∈ Finset.range nrPartition, pa.accessNum i = total)
    (htotal : nrPartition ≤ total) :
    ∃ recs, calculatePartitionSkew byRatio byPid pa nrDpus (nrDpus / nrPartition) total =
        .ok recs ∧
      recs.map AccessRatio.partitionId = List.range nrPartition ∧
      (∀ r ∈ recs, 1 ≤ r.numDpuPerPartition) ∧ allocated recs = nrDpus := by
  have hloaded := pa.allocated_loaded (total / nrPartition) (nrDpus / nrPartition)
  have hlarge := pa.exists_large_sorted byRatio hdvd hsum htotal
  -- first the counts are brought to the number of DPUs, then single ones are moved
  obtain ⟨recs₁, hbalance, halloc₁⟩ := balance_ok (hloaded.perm (byRatio.perm _))
    (Nat.le_of_dvd hpos hdvd) hlarge
  obtain ⟨recs₂, hadjust, halloc₂⟩ := adjustLoop_ok 4 halloc₁
    (show nrPartition - 1 < nrPartition by decide)
  have hfinal := halloc₂.perm (byPid.perm recs₂)
  refine ⟨byPid.sort recs₂, ?_, ?_, hfinal.pos, hfinal.sum⟩
  · rw [calculatePartitionSkew, hbalance]
    change (adjustLoop 4 (nrPartition - 1) recs₁ >>= _) = _
    rw [hadjust]
    rfl
  · -- sorted by their different numbers, the records are in the order of the partitions
    have hnodup : (recs₂.map AccessRatio.partitionId).Nodup :=
      halloc₂.ids_nodup
    have hasc := (StdSort.pairwise_lt_iff (f := AccessRatio.partitionId) byPid recs₂).mpr hnodup
    exact hfinal.ids.eq_of_pairwise (fun a b _ _ hab hba => absurd hab hba.not_gt) hasc
      List.pairwise_lt_range

/-- All 128 accesses go to the first partition, and there are 256 DPUs. -/
theorem calculatePartitionSkew_single :
    ∃ recs, calculatePartitionSkew (.byKeyDesc AccessRatio.perDpuRatio)
        (.byKey AccessRatio.partitionId)
        { PartitionAccess.init with accessNum := fun i => if i = 0 then 128 else 0 } 256
        (256 / nrPartition) 128 = .ok recs ∧
      recs.map AccessRatio.partitionId = List.range nrPartition ∧
      (∀ r ∈ recs, 1 ≤ r.numDpuPerPartition) ∧ allocated recs = 256 :=
  calculatePartitionSkew_ok _ _ _ _ _ (by decide) (by decide) (by decide +kernel) (by decide)

end PimLex
