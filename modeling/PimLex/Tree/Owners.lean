import PimLex.Tree.Concurrent
import PimLex.Lock.Exclusion

/-!
# Who owns a node

A call owns the node it has locked, the children it is making there, and the child
that its split is still to insert into. The last one it owns without its lock, and
only as long as no other call takes that lock. While that holds, every node has one
owner; what a call relies on is then about nodes that it owns, or is kept by every
change another call makes.
-/

namespace PimLex

open Search Transition

namespace CallPc

/-- The node a call has come to. -/
def node : CallPc → Option NodeId
  | .readType n | .route n | .lockLoad n | .lockCas n _ => some n
  | pc => pc.holds

/-- The node whose count is one behind its keys. -/
def counts : CallPc → Option NodeId
  | .leafCount n child => some (target n child)
  | _ => none

theorem node_of_holds {pc : CallPc} {n : NodeId} (h : pc.holds = some n) : pc.node = some n := by
  cases pc <;> first | exact h | exact absurd h.symm (Option.some_ne_none n)

/-- Only a child of the locked node is aimed at. -/
theorem holds_of_aims {pc : CallPc} {n : NodeId} (h : pc.aims = some n) :
    ∃ m i, pc.holds = some m ∧ n = i :: m := by
  cases pc with
  | splitCompare m next => exact ⟨m, next, rfl, (Option.some.inj h).symm⟩
  | leafRead m child | leafWrite m child pos | leafCount m child =>
    obtain ⟨i, -, hi⟩ := Option.map_eq_some_iff.mp h
    exact ⟨m, i, rfl, hi.symm⟩
  | _ => exact absurd h.symm (Option.some_ne_none n)

/-- `insertLeaf` runs on the locked node or on the child aimed at. -/
theorem of_inLeaf {pc : CallPc} {n : NodeId} (h : pc.inLeaf = some n) :
    pc.holds = some n ∨ pc.aims = some n := by
  cases pc with
  | leafRead m child | leafWrite m child pos | leafCount m child =>
    cases child with
    | none => exact Or.inl h
    | some i => exact Or.inr h
  | _ => exact absurd h.symm (Option.some_ne_none n)

theorem inLeaf_of_counts {pc : CallPc} {n : NodeId} (h : pc.counts = some n) :
    pc.inLeaf = some n := by
  cases pc <;> first | exact h | exact absurd h.symm (Option.some_ne_none n)

end CallPc

variable {ι : Type*} {s s' : CallSystem ι} {lo k : DTYPE} {n m : NodeId} {t u : ι}
  {cells cells' base : NodeId → Cell}

/-- What a tree satisfies between the calls: the root's first key is at most the sentinel, no
node is empty, and a child's first key is at most its separator. -/
structure CellsOk (lo : DTYPE) (cells : NodeId → Cell) : Prop where
  root : (cells []).keys 0 ≤ lo
  count : ∀ n, Reach cells n → 1 ≤ (cells n).count
  child : ∀ n i, Reach cells n → (cells n).inner = true →
    (cells (i :: n)).keys 0 ≤ (cells n).keys i

/-- A slot of a leaf that holds a key, also just before it is counted. -/
def Live (s : CallSystem ι) (n : NodeId) (i : ℕ) : Prop :=
  i < (s.shared n).count ∨
    (i = (s.shared n).count ∧ ∃ t, (s.threads t).pc.counts = some n)

/-- The key is in a slot of a leaf that the pointers lead to. -/
def Placed (s : CallSystem ι) (k : DTYPE) : Prop :=
  ∃ n i, Reach s.shared n ∧ (s.shared n).inner = false ∧ Live s n i ∧ (s.shared n).keys i = k

/-- The call reads and writes the node alone: it has locked it, or is making it, or its split
is still to insert into it. -/
def OwnsNode (s : CallSystem ι) (t : ι) (n : NodeId) : Prop :=
  (s.threads t).pc.holds = some n ∨
    (∃ m i, (s.threads t).pc.holds = some m ∧ (s.shared m).inner = false ∧ n = i :: m) ∨
    (s.threads t).pc.aims = some n

/-- The pointers lead to the node, and a key above the sentinel is not below its first one. -/
def Arrived (lo : DTYPE) (cells : NodeId → Cell) (k : DTYPE) (n : NodeId) : Prop :=
  Reach cells n ∧ (lo < k → (cells n).keys 0 ≤ k)

/-- `insertLeaf` may run: on a leaf, and on a child only below a published split. -/
def LeafOk (lo : DTYPE) (cells : NodeId → Cell) (k : DTYPE) (n : NodeId)
    (child : Option (Fin childNum)) : Prop :=
  Arrived lo cells k n ∧ Reach cells (target n child) ∧ (cells (target n child)).inner = false

/-- What a call relies on. -/
def CallOk (lo : DTYPE) (s : CallSystem ι) (th : InsertCall) : Prop :=
  match th.pc with
  | .readType n | .lockLoad n | .recheck n => Arrived lo s.shared th.key n
  | .route n => Arrived lo s.shared th.key n ∧ (s.shared n).inner = true
  | .lockCas n old => Arrived lo s.shared th.key n ∧ old < lockSet
  | .readCount n => Arrived lo s.shared th.key n ∧ (s.shared n).inner = false
  | .split n i _ => Arrived lo s.shared th.key n ∧ (s.shared n).inner = false ∧
      (s.shared n).count = childNum ∧
      ∀ j : Fin childNum, j.val < i → s.shared (j :: n) = .fresh ((s.shared n).keys j)
  | .publish n _ => Arrived lo s.shared th.key n ∧ (s.shared n).inner = false ∧
      (s.shared n).count = childNum ∧
      ∀ j : Fin childNum, s.shared (j :: n) = .fresh ((s.shared n).keys j)
  | .splitCompare n next => Arrived lo s.shared th.key n ∧ (s.shared n).inner = true ∧
      (s.shared (next :: n)).inner = false ∧ Placed s ((s.shared n).keys 0)
  | .leafRead n child => LeafOk lo s.shared th.key n child
  | .leafWrite n child pos => LeafOk lo s.shared th.key n child ∧
      pos ≤ (s.shared (target n child)).count ∧
      (pos = 0 → th.key ≤ (s.shared (target n child)).keys 0)
  | .leafCount n child => LeafOk lo s.shared th.key n child ∧
      ∃ i ≤ (s.shared (target n child)).count, (s.shared (target n child)).keys i = th.key
  | .releaseLoad n retry | .releaseStore n retry _ => Arrived lo s.shared th.key n ∧
      (retry = false → lo < th.key → Placed s th.key)
  | .done ret => ret = true → lo < th.key → Placed s th.key
  | .aborted => True

/-- The invariant of the runs from `base` in which no call takes the lock of a node aimed at. -/
structure TreeInv (lo : DTYPE) (base : NodeId → Cell) (s : CallSystem ι) : Prop where
  cells : CellsOk lo s.shared
  calls : ∀ t, CallOk lo s (s.threads t)
  held : ∀ t n, (s.threads t).pc.holds = some n → IsSet (s.shared n).nodelock
  holder : ∀ t u n, (s.threads t).pc.holds = some n → (s.threads u).pc.holds = some n → t = u
  alone : ∀ t u n, (s.threads t).pc.holds = some n → (s.threads u).pc.aims ≠ some n
  kept : ∀ k, InTree base k → Placed s k

theorem CallOk.arrived {th : InsertCall} (h : CallOk lo s th) (hn : th.pc.node = some n) :
    Arrived lo s.shared th.key n := by
  unfold CallOk at h
  cases hpc : th.pc with
  | readType m | lockLoad m | recheck m =>
    rw [hpc] at h hn
    obtain rfl := Option.some.inj hn
    exact h
  | route m | lockCas m old | readCount m | split m i next | publish m next
  | splitCompare m next | releaseLoad m retry | releaseStore m retry v =>
    rw [hpc] at h hn
    obtain rfl := Option.some.inj hn
    exact h.1
  | leafRead m child =>
    rw [hpc] at h hn
    obtain rfl := Option.some.inj hn
    exact h.1
  | leafWrite m child pos | leafCount m child =>
    rw [hpc] at h hn
    obtain rfl := Option.some.inj hn
    exact h.1.1
  | done ret | aborted =>
    rw [hpc] at hn
    exact absurd hn.symm (Option.some_ne_none n)

theorem TreeInv.callOk (h : TreeInv lo base s) {pc : CallPc} (hpc : (s.threads t).pc = pc) :
    CallOk lo s { s.threads t with pc := pc } := by
  subst hpc
  exact h.calls t

theorem TreeInv.reach (h : TreeInv lo base s) (hn : (s.threads t).pc.holds = some n) :
    Reach s.shared n :=
  ((h.calls t).arrived (CallPc.node_of_holds hn)).1

/-- A node that a call has locked is not being made by another: its parent is published. -/
theorem TreeInv.not_making (h : TreeInv lo base s) {i : Fin childNum}
    (hleaf : (s.shared m).inner = false) (hn : n = i :: m) :
    (s.threads t).pc.holds ≠ some n := by
  intro ht
  subst hn
  rw [(h.reach ht).1] at hleaf
  exact Bool.noConfusion hleaf

/-- Two calls that have locked the parent are one. -/
theorem TreeInv.parent_unique (h : TreeInv lo base s) {m m' : NodeId} {i i' : Fin childNum}
    (ht : (s.threads t).pc.holds = some m) (hn : n = i :: m)
    (hu : (s.threads u).pc.holds = some m') (hn' : n = i' :: m') : t = u := by
  subst hn
  rw [← (List.cons.inj hn').2] at hu
  exact h.holder t u m ht hu

/-- A node has one owner. -/
theorem TreeInv.owner_unique (h : TreeInv lo base s) (ht : OwnsNode s t n) (hu : OwnsNode s u n) :
    t = u := by
  rcases ht with ht | ⟨m, i, ht, hleaf, hn⟩ | ht
  · rcases hu with hu | ⟨m', i', hu, hleaf', hn'⟩ | hu
    · exact h.holder t u n ht hu
    · exact absurd ht (h.not_making hleaf' hn')
    · exact absurd hu (h.alone t u n ht)
  · rcases hu with hu | ⟨m', i', hu, -, hn'⟩ | hu
    · exact absurd hu (h.not_making hleaf hn)
    · exact h.parent_unique ht hn hu hn'
    · obtain ⟨m', i', hu, hn'⟩ := CallPc.holds_of_aims hu
      exact h.parent_unique ht hn hu hn'
  · rcases hu with hu | ⟨m', i', hu, -, hn'⟩ | hu
    · exact absurd ht (h.alone u t n hu)
    · obtain ⟨m, i, ht, hn⟩ := CallPc.holds_of_aims ht
      exact h.parent_unique ht hn hu hn'
    · obtain ⟨m, i, ht, hn⟩ := CallPc.holds_of_aims ht
      obtain ⟨m', i', hu, hn'⟩ := CallPc.holds_of_aims hu
      exact h.parent_unique ht hn hu hn'

theorem OwnsNode.of_inLeaf (h : (s.threads t).pc.inLeaf = some n) : OwnsNode s t n :=
  (CallPc.of_inLeaf h).imp_right Or.inr

theorem TreeInv.exclusive (h : TreeInv lo base s) : Exclusive s :=
  fun _ _ _ ht hu => h.owner_unique (.of_inLeaf ht) (.of_inLeaf hu)

section Frame

/-- Pointers to inner nodes stay. -/
theorem Reach.mono
    (hinner : ∀ n, Reach cells n → (cells n).inner = true → (cells' n).inner = true)
    (h : Reach cells n) : Reach cells' n := by
  induction n with
  | nil => trivial
  | cons i n ih => exact ⟨hinner n h.2 h.1, ih h.2⟩

/-- What a step of call `t` leaves to the others. -/
structure Keeps (s s' : CallSystem ι) (t : ι) : Prop where
  inner : ∀ n, Reach s.shared n → (s.shared n).inner = true →
    (s'.shared n).inner = true ∧ (s'.shared n).keys = (s.shared n).keys
  first : ∀ n, Reach s.shared n → (s'.shared n).keys 0 ≤ (s.shared n).keys 0
  owned : ∀ u, u ≠ t → ∀ n, OwnsNode s u n → s'.shared n = s.shared n
  placed : ∀ k, Placed s k → Placed s' k

variable {child : Option (Fin childNum)}

theorem Keeps.reach (hk : Keeps s s' t) (h : Reach s.shared n) : Reach s'.shared n :=
  h.mono fun n hn hinner => (hk.inner n hn hinner).1

theorem Keeps.arrived (hk : Keeps s s' t) (h : Arrived lo s.shared k n) :
    Arrived lo s'.shared k n :=
  ⟨hk.reach h.1, fun hlo => (hk.first n h.1).trans (h.2 hlo)⟩

theorem Keeps.leafOk (hk : Keeps s s' t) (hut : u ≠ t)
    (hin : (s.threads u).pc.inLeaf = some (target n child)) (h : LeafOk lo s.shared k n child) :
    LeafOk lo s'.shared k n child := by
  obtain ⟨harr, hreach, hleaf⟩ := h
  refine ⟨hk.arrived harr, hk.reach hreach, ?_⟩
  rw [hk.owned u hut _ (.of_inLeaf hin)]
  exact hleaf

/-- A step of one call keeps what another relies on. -/
theorem Keeps.callOk (hk : Keeps s s' t) (hut : u ≠ t) (h : CallOk lo s (s.threads u)) :
    CallOk lo s' (s.threads u) := by
  have hheld : ∀ n, (s.threads u).pc.holds = some n → s'.shared n = s.shared n := fun n hn =>
    hk.owned u hut n (Or.inl hn)
  have hmaking : ∀ n (j : Fin childNum), (s.threads u).pc.holds = some n →
      (s.shared n).inner = false → s'.shared (j :: n) = s.shared (j :: n) := fun n j hn hleaf =>
    hk.owned u hut _ (Or.inr (Or.inl ⟨n, j, hn, hleaf, rfl⟩))
  have hin : ∀ n, (s.threads u).pc.inLeaf = some n → s'.shared n = s.shared n := fun n hn =>
    hk.owned u hut n (.of_inLeaf hn)
  -- by the place of the call: the way to its node lasts, and its own cells have not changed
  unfold CallOk at h ⊢
  cases hpc : (s.threads u).pc with
  | readType n | lockLoad n | recheck n =>
    rw [hpc] at h
    exact hk.arrived h
  | route n =>
    rw [hpc] at h
    exact ⟨hk.arrived h.1, (hk.inner n h.1.1 h.2).1⟩
  | lockCas n old =>
    rw [hpc] at h
    exact ⟨hk.arrived h.1, h.2⟩
  | readCount n =>
    rw [hpc] at h
    refine ⟨hk.arrived h.1, ?_⟩
    rw [hheld n (by rw [hpc]; rfl)]
    exact h.2
  | split n i next =>
    rw [hpc] at h
    obtain ⟨harr, hleaf, hcount, hmade⟩ := h
    have hn := hheld n (by rw [hpc]; rfl)
    refine ⟨hk.arrived harr, hn ▸ hleaf, hn ▸ hcount, fun j hj => ?_⟩
    rw [hmaking n j (by rw [hpc]; rfl) hleaf, hn]
    exact hmade j hj
  | publish n next =>
    rw [hpc] at h
    obtain ⟨harr, hleaf, hcount, hmade⟩ := h
    have hn := hheld n (by rw [hpc]; rfl)
    refine ⟨hk.arrived harr, hn ▸ hleaf, hn ▸ hcount, fun j => ?_⟩
    rw [hmaking n j (by rw [hpc]; rfl) hleaf, hn]
    exact hmade j
  | splitCompare n next =>
    rw [hpc] at h
    obtain ⟨harr, hinner, hleaf, hplaced⟩ := h
    have hn := hheld n (by rw [hpc]; rfl)
    have hnext := hk.owned u hut (next :: n) (Or.inr (Or.inr (by rw [hpc]; rfl)))
    refine ⟨hk.arrived harr, hn ▸ hinner, hnext ▸ hleaf, hk.placed _ ?_⟩
    rw [hn]
    exact hplaced
  | leafRead n child =>
    rw [hpc] at h
    exact hk.leafOk hut (by rw [hpc]; rfl) h
  | leafWrite n child pos =>
    rw [hpc] at h
    have hn := hin (target n child) (by rw [hpc]; rfl)
    refine ⟨hk.leafOk hut (by rw [hpc]; rfl) h.1, ?_⟩
    rw [hn]
    exact h.2
  | leafCount n child =>
    rw [hpc] at h
    have hn := hin (target n child) (by rw [hpc]; rfl)
    refine ⟨hk.leafOk hut (by rw [hpc]; rfl) h.1, ?_⟩
    rw [hn]
    exact h.2
  | releaseLoad n retry | releaseStore n retry v =>
    rw [hpc] at h
    exact ⟨hk.arrived h.1, fun hretry hlo => hk.placed _ (h.2 hretry hlo)⟩
  | done ret =>
    rw [hpc] at h
    exact fun hret hlo => hk.placed _ (h hret hlo)
  | aborted => trivial

variable [DecidableEq ι] {th' : InsertCall}

/-- The invariant after a step: what is left to show about the call that took it. -/
theorem TreeInv.put (h : TreeInv lo base s) (hcells : CellsOk lo cells')
    (hcall : CallOk lo (s.put t cells' th') th')
    (hset : ∀ n, th'.pc.holds = some n → IsSet (cells' n).nodelock)
    (halone : ∀ n, th'.pc.holds = some n ∨ th'.pc.aims = some n → ∀ u ≠ t, ¬ OwnsNode s u n)
    (hkeeps : Keeps s (s.put t cells' th') t) : TreeInv lo base (s.put t cells' th') := by
  have hother : ∀ u ≠ t, (s.put t cells' th').threads u = s.threads u := fun u hu =>
    System.put_of_ne hu
  constructor
  case cells => exact hcells
  case calls =>
    intro u
    rcases eq_or_ne u t with rfl | hu
    · rwa [System.put_self]
    · rw [hother u hu]
      exact hkeeps.callOk hu (h.calls u)
  case held =>
    intro u n hn
    rcases eq_or_ne u t with rfl | hu
    · rw [System.put_self] at hn
      exact hset n hn
    · rw [hother u hu] at hn
      rw [hkeeps.owned u hu n (Or.inl hn)]
      exact h.held u n hn
  case holder =>
    intro a c n ha hc
    -- of two calls at one node, one took the step, and that one is alone there
    rcases eq_or_ne a t with rfl | hat <;> rcases eq_or_ne c a with rfl | hca
    · rfl
    · rw [System.put_self] at ha
      rw [hother c hca] at hc
      exact absurd (Or.inl hc) (halone n (Or.inl ha) c hca)
    · rfl
    · rw [hother a hat] at ha
      rcases eq_or_ne c t with rfl | hct
      · rw [System.put_self] at hc
        exact absurd (Or.inl ha) (halone n (Or.inl hc) a hat)
      · rw [hother c hct] at hc
        exact h.holder a c n ha hc
  case alone =>
    intro a c n ha hc
    rcases eq_or_ne a t with rfl | hat <;> rcases eq_or_ne c a with rfl | hca
    · -- a call aims at a child of what it holds
      obtain ⟨m, i, hm, rfl⟩ := CallPc.holds_of_aims hc
      rw [ha] at hm
      exact absurd (Option.some.inj hm) (List.cons_ne_self i m)
    · rw [System.put_self] at ha
      rw [hother c hca] at hc
      exact halone n (Or.inl ha) c hca (Or.inr (Or.inr hc))
    · obtain ⟨m, i, hm, rfl⟩ := CallPc.holds_of_aims hc
      rw [ha] at hm
      exact absurd (Option.some.inj hm) (List.cons_ne_self i m)
    · rw [hother a hat] at ha
      rcases eq_or_ne c t with rfl | hct
      · rw [System.put_self] at hc
        exact halone n (Or.inr hc) a hat (Or.inl ha)
      · rw [hother c hct] at hc
        exact h.alone a c n ha hc
  case kept => exact fun k hk => hkeeps.placed k (h.kept k hk)

end Frame

end PimLex
