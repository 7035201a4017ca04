import PimLex.Fitting.Greedy
import PimLex.Pgm.Taken
import Mathlib.Data.List.Destutter

/-!
# The segmentation

`make_segmentation` takes points into one model until it refuses one, emits the
model's segment and goes on with the refused point. Of points with equal keys it
takes the first. Each segment is as long as it can be, so no set of lines that keep
within `epsilon` is smaller. `make_segmentation_par` does the same for each thread's
chunk.
-/

namespace PimLex.Pgm

open Fitting

/-- The loop of `make_segmentation`; `p` is the last point that was taken. -/
def segmentLoop (opt : OptModel) (p : ℕ × ℕ) (out : List CanonicalSegment) :
    List (ℕ × ℕ) → Except PgmFault (List CanonicalSegment)
  | [] => .ok (out ++ [opt.getSegment])
  | nextP :: rest =>
    if nextP.1 = p.1 then segmentLoop opt p out rest
    else do
      let (added, opt) ← opt.addPoint nextP.1 nextP.2
      if added then segmentLoop opt nextP out rest
      else
        let segment := opt.getSegment
        let (_, opt) ← opt.addPoint nextP.1 nextP.2
        segmentLoop opt nextP (out ++ [segment]) rest

/-- `make_segmentation`: what it puts out. The count it returns is the length. -/
def makeSegmentation (n epsilon : ℕ) (inFun : ℕ → ℕ × ℕ) :
    Except PgmFault (List CanonicalSegment) :=
  if n = 0 then .ok []
  else do
    let p := inFun 0
    let (_, opt) ← (OptModel.new epsilon).addPoint p.1 p.2
    segmentLoop opt p [] ((List.range' 1 (n - 1)).map inFun)

/-- The loop that moves the start of a chunk over keys that the chunk before it ends with. -/
def skipEqual (inFun : ℕ → ℕ × ℕ) (first : ℕ) : ℕ → ℕ
  | 0 => first
  | fuel + 1 =>
    if (inFun first).1 ≠ (inFun (first - 1)).1 then first else skipEqual inFun (first + 1) fuel

/-- The start of the chunk of thread `i`. -/
def chunkFirst (parallelism n : ℕ) (inFun : ℕ → ℕ × ℕ) (i : ℕ) : ℕ :=
  let chunkSize := n / parallelism
  let first := i * chunkSize
  let last := if i = parallelism - 1 then n else first + chunkSize
  if first > 0 then skipEqual inFun first (last - first) else first

/-- The end of the chunk of thread `i`. -/
def chunkLast (parallelism n i : ℕ) : ℕ :=
  if i = parallelism - 1 then n else i * (n / parallelism) + n / parallelism

/-- `make_segmentation_par` for a number of threads, at most 32. They write to lists of their own,
which are then put out one after the other. -/
def makeSegmentationPar (parallelism n epsilon : ℕ) (inFun : ℕ → ℕ × ℕ) :
    Except PgmFault (List CanonicalSegment) :=
  if parallelism = 1 ∨ n < 2 ^ 15 then makeSegmentation n epsilon inFun
  else do
    let results ← (List.range parallelism).mapM fun i =>
      let first := chunkFirst parallelism n inFun i
      let last := chunkLast parallelism n i
      if first > 0 ∧ first = last then .ok []
      -- the list's `reserve` divides by the square
      else if epsilon > 0 ∧ epsilon * epsilon % 2 ^ 64 = 0 then .error .divideByZero
      else makeSegmentation (last - first) epsilon fun j => inFun (first + j)
    .ok results.flatten

variable {m : OptModel} {epsilon n : ℕ} {inFun : ℕ → ℕ × ℕ} {p : ℕ × ℕ}
  {run rest l r : List (ℕ × ℕ)} {out : List CanonicalSegment}

theorem fits_hereditary (epsilon : ℕ) : Hereditary (Fits epsilon) := by
  rintro l r hlr ⟨f, hf⟩
  exact ⟨f, fun g hg => hf g ((hlr.map (gate epsilon)).subset hg)⟩

theorem Fits.mono {epsilon' : ℕ} (h : epsilon ≤ epsilon') (hfits : Fits epsilon l) :
    Fits epsilon' l := by
  obtain ⟨f, hf⟩ := hfits
  refine ⟨f, fun g hg => ?_⟩
  obtain ⟨p, hp, rfl⟩ := List.mem_map.mp hg
  obtain ⟨hlow, hhigh⟩ := hf _ (List.mem_map_of_mem hp)
  have hfloor : (lowerEnd epsilon' p.1 p.2).y ≤ (lowerEnd epsilon p.1 p.2).y := by
    simp only [lowerEnd]
    split <;> split <;> omega
  have hceil : (upperEnd epsilon p.1 p.2).y ≤ (upperEnd epsilon' p.1 p.2).y := by
    simp only [upperEnd]
    split <;> split <;> omega
  exact ⟨(Int.cast_le.mpr hfloor).trans hlow, hhigh.trans (Int.cast_le.mpr hceil)⟩

/-- Of points with equal keys in a row the first one. -/
def firstOfEqual (points : List (ℕ × ℕ)) : List (ℕ × ℕ) := points.destutter fun p q => p.1 ≠ q.1

theorem firstOfEqual_cons_of_eq {q : ℕ × ℕ} (h : p.1 = q.1) :
    firstOfEqual (p :: q :: rest) = firstOfEqual (p :: rest) :=
  List.destutter'_cons_neg (R := fun p q : ℕ × ℕ => p.1 ≠ q.1) rest (not_not.mpr h)

theorem firstOfEqual_cons_of_ne {q : ℕ × ℕ} (h : p.1 ≠ q.1) :
    firstOfEqual (p :: q :: rest) = p :: firstOfEqual (q :: rest) :=
  List.destutter'_cons_pos (R := fun p q : ℕ × ℕ => p.1 ≠ q.1) rest h

theorem head?_firstOfEqual (p : ℕ × ℕ) (rest : List (ℕ × ℕ)) :
    (firstOfEqual (p :: rest)).head? = some p := by
  induction rest with
  | nil => rfl
  | cons q rest ih =>
    by_cases h : p.1 = q.1
    · rw [firstOfEqual_cons_of_eq h, ih]
    · rw [firstOfEqual_cons_of_ne h, List.head?_cons]

/-- The points are cut greedily, and each piece has its segment. -/
structure Segmentation (epsilon : ℕ) (points : List (ℕ × ℕ)) (runs : List (List (ℕ × ℕ)))
    (segments : List CanonicalSegment) : Prop where
  greedy : Greedy (Fits epsilon) points runs
  segments : List.Forall₂ (fun run segment => segment.IsOf epsilon run) runs segments

/-- The loop goes on from a model that has taken a run. -/
theorem segmentLoop_spec (he : 0 < epsilon) (run : List (ℕ × ℕ)) (out : List CanonicalSegment)
    (hm : m.HasTaken epsilon (run ++ [p]))
    (hrest : (p :: rest).Pairwise fun p q => p.1 ≤ q.1) (hy : ∀ q ∈ rest, q.2 < 2 ^ 64) :
    ∃ runs segments, segmentLoop m p out rest = .ok (out ++ segments) ∧
      Segmentation epsilon (run ++ firstOfEqual (p :: rest)) runs segments := by
  induction rest generalizing m p run out with
  | nil =>
    refine ⟨[run ++ [p]], [m.getSegment], rfl, ⟨⟨⟨?_, ?_⟩, ?_, trivial⟩, ?_⟩⟩
    · simp [firstOfEqual]
    · exact List.forall_mem_singleton.mpr (hm.fits he)
    · exact List.forall_mem_singleton.mpr (by simp)
    · exact List.Forall₂.cons hm.getSegment List.Forall₂.nil
  | cons q rest ih =>
    obtain ⟨hp, hsorted⟩ := List.pairwise_cons.mp hrest
    have hyq := hy q List.mem_cons_self
    have hyrest : ∀ q ∈ rest, q.2 < 2 ^ 64 := fun q hq => hy q (List.mem_cons_of_mem _ hq)
    rw [segmentLoop]
    by_cases heq : q.1 = p.1
    · rw [if_pos heq, firstOfEqual_cons_of_eq heq.symm]
      -- an equal key is skipped
      refine ih run out hm (List.pairwise_cons.mpr ⟨fun r hr => ?_, hsorted.of_cons⟩) hyrest
      exact hp r (List.mem_cons_of_mem _ hr)
    · have hlt : p.1 < q.1 := lt_of_le_of_ne (hp q List.mem_cons_self) (Ne.symm heq)
      have hbefore : ∀ r ∈ run ++ [p], r.1 < q.1 := by
        intro r hr
        rcases List.mem_append.mp hr with hr | hr
        · have hrp := (List.pairwise_append.mp hm.increasing).2.2 r hr p (List.mem_singleton_self p)
          exact hrp.trans hlt
        · exact List.mem_singleton.mp hr ▸ hlt
      rw [if_neg heq, firstOfEqual_cons_of_ne (Ne.symm heq), List.append_cons]
      rcases hm.addPoint he hbefore hyq with ⟨-, m', hadd, hm'⟩ | ⟨hout, -, m', hadd, hm', hseg⟩
      · rw [hadd]
        -- the run goes on
        exact ih (run ++ [p]) out hm' hsorted hyrest
      · -- the segment of the run is put out, and the next run starts with `q`
        obtain ⟨m'', hadd', hm''⟩ := hm'.single (x := q.1) hyq
        obtain ⟨runs, segments, hloop, hruns⟩ := ih [] (out ++ [m'.getSegment])
          hm'' hsorted hyrest
        refine ⟨(run ++ [p]) :: runs, m.getSegment :: segments, ?_,
          hruns.greedy.cons (hm.fits he) (by simp) fun x hx => ?_,
          List.Forall₂.cons hm.getSegment hruns.segments⟩
        · rw [hadd]
          change (m'.addPoint q.1 q.2 >>= _) = _
          rw [hadd']
          change segmentLoop m'' q (out ++ [m'.getSegment]) rest = _
          rw [hloop, hseg, List.append_assoc]
          rfl
        · rw [head?_firstOfEqual] at hx
          obtain rfl := Option.some.inj hx
          exact hout

/-- The points that `make_segmentation` reads. -/
def points (n : ℕ) (inFun : ℕ → ℕ × ℕ) : List (ℕ × ℕ) := (List.range n).map inFun

theorem points_succ (n : ℕ) (inFun : ℕ → ℕ × ℕ) :
    points (n + 1) inFun = inFun 0 :: (List.range' 1 n).map inFun := by
  rw [points, List.range_eq_range', List.range'_succ, List.map_cons]

section Chunks

variable {a len first fuel : ℕ}

/-- The point at `j` has another key than the one before it. -/
def isFirst (inFun : ℕ → ℕ × ℕ) (j : ℕ) : Bool := j = 0 ∨ (inFun j).1 ≠ (inFun (j - 1)).1

/-- The points from `a` to `b` with another key than the one before. -/
def firstsIn (inFun : ℕ → ℕ × ℕ) (a b : ℕ) : List (ℕ × ℕ) :=
  ((List.range' a (b - a)).filter (isFirst inFun)).map inFun

theorem firstsIn_self (inFun : ℕ → ℕ × ℕ) (a : ℕ) : firstsIn inFun a a = [] := by
  rw [firstsIn, Nat.sub_self]
  rfl

theorem firstsIn_append {b c : ℕ} (hab : a ≤ b) (hbc : b ≤ c) :
    firstsIn inFun a b ++ firstsIn inFun b c = firstsIn inFun a c := by
  have happ : List.range' a (b - a) ++ List.range' (a + 1 * (b - a)) (c - b) = _ :=
    List.range'_append
  rw [one_mul, Nat.add_sub_cancel' hab, show b - a + (c - b) = c - a by omega] at happ
  rw [firstsIn, firstsIn, firstsIn, ← List.map_append, ← List.filter_append, happ]

theorem firstOfEqual_range' (hp : p.1 = (inFun a).1) :
    firstOfEqual (p :: (List.range' (a + 1) len).map inFun) =
      p :: ((List.range' (a + 1) len).filter (isFirst inFun)).map inFun := by
  induction len generalizing a p with
  | zero => rfl
  | succ len ih =>
    have hfirst : isFirst inFun (a + 1) = true ↔ (inFun (a + 1)).1 ≠ (inFun a).1 := by
      simp [isFirst]
    rw [List.range'_succ, List.map_cons, List.filter_cons]
    by_cases h : p.1 = (inFun (a + 1)).1
    · rw [firstOfEqual_cons_of_eq h, ih h, if_neg]
      rw [hfirst, not_not, ← h, hp]
    · rw [firstOfEqual_cons_of_ne h, ih rfl, if_pos, List.map_cons]
      rw [hfirst, ← hp]
      exact Ne.symm h

/-- The points of a chunk that `make_segmentation` takes, by their places in the whole input. -/
theorem firstOfEqual_chunk {last : ℕ} (hle : first ≤ last)
    (hfirst : first < last → isFirst inFun first = true) :
    firstOfEqual (points (last - first) fun j => inFun (first + j)) =
      firstsIn inFun first last := by
  have hpoints : points (last - first) (fun j => inFun (first + j)) =
      (List.range' first (last - first)).map inFun := by
    rw [points, List.range'_eq_map_range, List.map_map]
    rfl
  rw [hpoints, firstsIn]
  rcases hle.eq_or_lt with rfl | hlt
  · simp [firstOfEqual]
  · obtain ⟨len, hlen⟩ : ∃ len, last - first = len + 1 := ⟨last - first - 1, by omega⟩
    rw [hlen, List.range'_succ, List.map_cons, firstOfEqual_range' rfl, List.filter_cons,
      if_pos (hfirst hlt), List.map_cons]

theorem firstOfEqual_points (n : ℕ) (inFun : ℕ → ℕ × ℕ) :
    firstOfEqual (points n inFun) = firstsIn inFun 0 n := by
  have hzero : 0 < n → isFirst inFun 0 = true := fun _ => by simp [isFirst]
  have hchunk := firstOfEqual_chunk (Nat.zero_le n) hzero
  simpa using hchunk

theorem skipEqual_spec (inFun : ℕ → ℕ × ℕ) (fuel : ℕ) (hfirst : 0 < first) :
    first ≤ skipEqual inFun first fuel ∧ skipEqual inFun first fuel ≤ first + fuel ∧
      (∀ j, first ≤ j → j < skipEqual inFun first fuel → isFirst inFun j = false) ∧
      (skipEqual inFun first fuel < first + fuel →
        isFirst inFun (skipEqual inFun first fuel) = true) := by
  induction fuel generalizing first with
  | zero =>
    refine ⟨le_rfl, le_rfl, fun j hj hj' => absurd hj' hj.not_gt, fun h => ?_⟩
    exact absurd h (lt_irrefl _)
  | succ fuel ih =>
    have hiff : isFirst inFun first = true ↔ (inFun first).1 ≠ (inFun (first - 1)).1 := by
      simp [isFirst, hfirst.ne']
    rw [skipEqual]
    split
    case isTrue h =>
      exact ⟨le_rfl, by omega, fun j hj hj' => absurd hj' hj.not_gt, fun _ => hiff.mpr h⟩
    case isFalse h =>
      obtain ⟨hlow, hhigh, hskip, hstop⟩ := ih (Nat.add_pos_left hfirst 1)
      refine ⟨by omega, by omega, fun j hj hj' => ?_, fun hlt => hstop (by omega)⟩
      rcases hj.eq_or_lt with rfl | hj
      · exact Bool.eq_false_iff.mpr (mt hiff.mp h)
      · exact hskip j hj hj'

end Chunks

theorem points_pairwise (hsorted : ∀ i j, i ≤ j → j < n → (inFun i).1 ≤ (inFun j).1) :
    (points n inFun).Pairwise fun p q => p.1 ≤ q.1 := by
  refine List.pairwise_map.mpr ((List.pairwise_lt_range (n := n)).imp_of_mem ?_)
  intro i j _ hj hij
  exact hsorted i j hij.le (List.mem_range.mp hj)

/-- `make_segmentation` cuts the points greedily. -/
theorem makeSegmentation_spec (n : ℕ) (inFun : ℕ → ℕ × ℕ) (he : 0 < epsilon)
    (hsorted : ∀ i j, i ≤ j → j < n → (inFun i).1 ≤ (inFun j).1)
    (hy : ∀ i < n, (inFun i).2 < 2 ^ 64) :
    ∃ runs segments, makeSegmentation n epsilon inFun = .ok segments ∧
      Segmentation epsilon (firstOfEqual (points n inFun)) runs segments := by
  cases n with
  | zero => exact ⟨[], [], rfl, Greedy.nil, List.Forall₂.nil⟩
  | succ n =>
    obtain ⟨m, hadd, hm⟩ := (OptModel.HasTaken.new epsilon).single (x := (inFun 0).1)
      (hy 0 (Nat.succ_pos n))
    replace hsorted := points_pairwise hsorted
    rw [points_succ] at hsorted ⊢
    obtain ⟨runs, segments, hloop, hruns⟩ := segmentLoop_spec he [] [] hm hsorted
      fun q hq => by
        obtain ⟨i, hi, rfl⟩ := List.mem_map.mp hq
        rw [List.mem_range'_1] at hi
        exact hy i (by omega)
    refine ⟨runs, segments, ?_, hruns⟩
    rw [makeSegmentation, if_neg n.succ_ne_zero]
    change (OptModel.addPoint _ (inFun 0).1 (inFun 0).2 >>= _) = _
    rw [hadd]
    exact hloop

section Parallel

variable {parallelism i first last : ℕ}

/-- A chunk leaves out the points at its start whose keys the chunk before it ends with. -/
theorem firstsIn_skip {start : ℕ} (hstart : start ≤ first) (hle : first ≤ last)
    (hskip : ∀ j, start ≤ j → j < first → isFirst inFun j = false) :
    firstsIn inFun start last = firstsIn inFun first last := by
  have hnone : firstsIn inFun start first = [] := by
    rw [firstsIn, List.map_eq_nil_iff, List.filter_eq_nil_iff]
    intro j hj
    rw [List.mem_range'_1] at hj
    rw [hskip j hj.1 (by omega)]
    exact Bool.false_ne_true
  rw [← firstsIn_append hstart hle, hnone, List.nil_append]

theorem chunkLast_le (n : ℕ) (hi : i < parallelism) : chunkLast parallelism n i ≤ n := by
  rw [chunkLast]
  split
  · exact le_rfl
  · calc i * (n / parallelism) + n / parallelism = (i + 1) * (n / parallelism) :=
          (Nat.succ_mul _ _).symm
      _ ≤ parallelism * (n / parallelism) := Nat.mul_le_mul_right _ hi
      _ ≤ n := Nat.mul_div_le n parallelism

/-- The chunks' points are those of the threads' ranges. -/
theorem chunk_spec (n : ℕ) (inFun : ℕ → ℕ × ℕ) (hi : i < parallelism) :
    chunkFirst parallelism n inFun i ≤ chunkLast parallelism n i ∧
      firstOfEqual (points (chunkLast parallelism n i - chunkFirst parallelism n inFun i)
        fun j => inFun (chunkFirst parallelism n inFun i + j)) =
      firstsIn inFun (i * (n / parallelism)) (chunkLast parallelism n i) := by
  have hstart : i * (n / parallelism) ≤ chunkLast parallelism n i := by
    rw [chunkLast]
    split
    · calc i * (n / parallelism) ≤ parallelism * (n / parallelism) := Nat.mul_le_mul_right _ hi.le
        _ ≤ n := Nat.mul_div_le n parallelism
    · exact Nat.le_add_right _ _
  have hlast : (if i = parallelism - 1 then n
      else i * (n / parallelism) + n / parallelism) = chunkLast parallelism n i := rfl
  rw [chunkFirst]
  simp only [hlast]
  split
  case isTrue hpos =>
    obtain ⟨hlow, hhigh, hskip, hstop⟩ :=
      skipEqual_spec inFun (chunkLast parallelism n i - i * (n / parallelism)) hpos
    rw [Nat.add_sub_cancel' hstart] at hhigh hstop
    refine ⟨hhigh, ?_⟩
    rw [firstOfEqual_chunk hhigh hstop, firstsIn_skip hlow hhigh hskip]
  case isFalse hzero =>
    refine ⟨hstart, firstOfEqual_chunk hstart fun _ => ?_⟩
    rw [Nat.eq_zero_of_not_pos hzero]
    simp [isFirst]

/-- The threads' ranges cover the input. -/
theorem flatten_chunks (hpar : 1 ≤ parallelism) :
    ((List.range parallelism).map fun i =>
      firstsIn inFun (i * (n / parallelism)) (chunkLast parallelism n i)).flatten =
      firstsIn inFun 0 n := by
  have hfull : ∀ k < parallelism, ((List.range k).map fun i =>
      firstsIn inFun (i * (n / parallelism)) (chunkLast parallelism n i)).flatten =
      firstsIn inFun 0 (k * (n / parallelism)) := by
    intro k hk
    induction k with
    | zero => simp [firstsIn_self]
    | succ k ih =>
      have hlast : chunkLast parallelism n k = (k + 1) * (n / parallelism) := by
        rw [chunkLast, if_neg (by omega), Nat.succ_mul]
      rw [List.range_succ, List.map_append, List.flatten_append, ih (by omega), List.map_singleton,
        List.flatten_singleton, hlast]
      exact firstsIn_append (Nat.zero_le _) (Nat.mul_le_mul_right _ k.le_succ)
  obtain ⟨k, rfl⟩ : ∃ k, parallelism = k + 1 := ⟨parallelism - 1, by omega⟩
  have hlast : chunkLast (k + 1) n k = n := if_pos rfl
  rw [List.range_succ, List.map_append, List.flatten_append, hfull k k.lt_succ_self,
    List.map_singleton, List.flatten_singleton, hlast]
  refine firstsIn_append (Nat.zero_le _) ?_
  exact (Nat.mul_le_mul_right _ k.le_succ).trans (Nat.mul_div_le n (k + 1))

theorem exists_mapM {α β : Type} {g : α → Except PgmFault β} {R : α → β → Prop} {as : List α}
    (h : ∀ a ∈ as, ∃ b, g a = .ok b ∧ R a b) :
    ∃ bs, as.mapM g = .ok bs ∧ List.Forall₂ R as bs := by
  induction as with
  | nil => exact ⟨[], rfl, List.Forall₂.nil⟩
  | cons a as ih =>
    obtain ⟨b, hb, hR⟩ := h a List.mem_cons_self
    obtain ⟨bs, hbs, hRs⟩ := ih fun a ha => h a (List.mem_cons_of_mem _ ha)
    refine ⟨b :: bs, ?_, List.Forall₂.cons hR hRs⟩
    rw [List.mapM_cons, hb]
    change (as.mapM g >>= _) = _
    rw [hbs]
    rfl

/-- The chunks' segments, one after the other. -/
theorem exists_parts {is : List ℕ} {chunk : ℕ → List (ℕ × ℕ)}
    {results : List (List CanonicalSegment)}
    (h : List.Forall₂ (fun i segments => ∃ runs, Segmentation epsilon (chunk i) runs segments)
      is results) :
    ∃ parts, List.Forall₂ (Greedy (Fits epsilon)) (is.map chunk) parts ∧
      List.Forall₂ (fun run segment => segment.IsOf epsilon run) parts.flatten results.flatten := by
  induction h with
  | nil => exact ⟨[], List.Forall₂.nil, List.Forall₂.nil⟩
  | cons hfirst _ ih =>
    obtain ⟨runs, hruns⟩ := hfirst
    obtain ⟨parts, hparts, hsegments⟩ := ih
    exact ⟨runs :: parts, List.Forall₂.cons hruns.greedy hparts,
      List.rel_append hruns.segments hsegments⟩

end Parallel

/-- The points are cut into runs that lines fit, and each run has its segment. -/
structure Segmented (epsilon : ℕ) (points : List (ℕ × ℕ)) (runs : List (List (ℕ × ℕ)))
    (segments : List CanonicalSegment) : Prop where
  cuts : Cuts (Fits epsilon) points runs
  nonempty : ∀ run ∈ runs, run ≠ []
  segments : List.Forall₂ (fun run segment => segment.IsOf epsilon run) runs segments

namespace Segmentation

variable {pts : List (ℕ × ℕ)} {runs cuts : List (List (ℕ × ℕ))} {segments : List CanonicalSegment}

theorem segmented (h : Segmentation epsilon pts runs segments) :
    Segmented epsilon pts runs segments :=
  ⟨h.greedy.toCuts, h.greedy.nonempty, h.segments⟩

theorem length_le (h : Segmentation epsilon pts runs segments)
    (hcuts : Cuts (Fits epsilon) pts cuts) : segments.length ≤ cuts.length := by
  rw [← h.segments.length_eq]
  exact h.greedy.length_le (fits_hereditary epsilon) hcuts

end Segmentation

/-- What is lost at the places between the threads' chunks. -/
def extraSegments (parallelism n : ℕ) : ℕ :=
  if parallelism = 1 ∨ n < 2 ^ 15 then 0 else parallelism - 1

theorem makeSegmentationPar_spec {parallelism : ℕ} (hpar : 1 ≤ parallelism)
    (he : ¬ 2 ^ 32 ∣ epsilon)
    (hsorted : ∀ i j, i ≤ j → j < n → (inFun i).1 ≤ (inFun j).1)
    (hy : ∀ i < n, (inFun i).2 < 2 ^ 64) :
    ∃ runs segments, makeSegmentationPar parallelism n epsilon inFun = .ok segments ∧
      Segmented epsilon (firstOfEqual (points n inFun)) runs segments ∧
      ∀ cuts, Cuts (Fits epsilon) (firstOfEqual (points n inFun)) cuts →
        segments.length ≤ cuts.length + extraSegments parallelism n := by
  have hpos : 0 < epsilon := Nat.pos_of_ne_zero fun hzero => he (hzero ▸ dvd_zero _)
  have hreserve : ¬ (epsilon > 0 ∧ epsilon * epsilon % 2 ^ 64 = 0) :=
    fun h => he (square_wraps_iff.mp h.2)
  rw [extraSegments]
  rw [makeSegmentationPar]
  simp only [if_neg hreserve]
  split
  case isTrue =>
    obtain ⟨runs, segments, hok, hruns⟩ := makeSegmentation_spec n inFun hpos hsorted hy
    exact ⟨runs, segments, hok, hruns.segmented, fun cuts => hruns.length_le⟩
  case isFalse =>
    -- a chunk starts with its first new key, and an empty one gives no segments
    have hchunk : ∀ i ∈ List.range parallelism, ∃ segments,
        (if chunkFirst parallelism n inFun i > 0 ∧
            chunkFirst parallelism n inFun i = chunkLast parallelism n i then .ok []
          else makeSegmentation (chunkLast parallelism n i - chunkFirst parallelism n inFun i)
            epsilon fun j => inFun (chunkFirst parallelism n inFun i + j)) = .ok segments ∧
        ∃ runs, Segmentation epsilon
          (firstsIn inFun (i * (n / parallelism)) (chunkLast parallelism n i)) runs segments := by
      intro i hi
      obtain ⟨hle, hpoints⟩ := chunk_spec n inFun (List.mem_range.mp hi)
      have hlast := chunkLast_le n (List.mem_range.mp hi)
      rw [← hpoints]
      split
      case isTrue hempty =>
        rw [← hempty.2, Nat.sub_self]
        exact ⟨[], rfl, [], Greedy.nil, List.Forall₂.nil⟩
      case isFalse =>
        obtain ⟨runs, segments, hok, hruns⟩ := makeSegmentation_spec
          (chunkLast parallelism n i - chunkFirst parallelism n inFun i)
          (fun j => inFun (chunkFirst parallelism n inFun i + j)) hpos
          (fun j k hjk hk => hsorted _ _ (by omega) (by omega)) fun j hj => hy _ (by omega)
        exact ⟨segments, hok, runs, hruns⟩
    obtain ⟨results, hresults, hparts⟩ := exists_mapM hchunk
    obtain ⟨parts, hgreedy, hsegments⟩ := exists_parts hparts
    -- the chunks together have the first of equal keys, each once
    have hflat : (List.map (fun i => firstsIn inFun (i * (n / parallelism))
        (chunkLast parallelism n i)) (List.range parallelism)).flatten =
        firstOfEqual (points n inFun) := by
      rw [flatten_chunks hpar, firstOfEqual_points]
    obtain ⟨hcut, hnonempty⟩ := Greedy.flatten hgreedy
    refine ⟨parts.flatten, results.flatten, ?_, ⟨hflat ▸ hcut, hnonempty, hsegments⟩,
      fun cuts hcuts => ?_⟩
    · rw [hresults]
      rfl
    · rw [← hsegments.length_eq]
      have hlen := Greedy.length_flatten_le (fits_hereditary epsilon) hgreedy (hflat.symm ▸ hcuts)
      rwa [List.length_map, List.length_range] at hlen

section Small

variable {segments : List CanonicalSegment}

theorem segmentLoop_small (h : m.Small) (hout : ∀ s ∈ out, s.Small)
    (hkey : ∀ q ∈ rest, q.1 < 2 ^ 64) (hy : ∀ q ∈ rest, q.2 + m.epsilon < 2 ^ 62)
    (hok : segmentLoop m p out rest = .ok segments) : ∀ s ∈ segments, s.Small := by
  induction rest generalizing m p out with
  | nil =>
    obtain rfl := Except.ok.inj hok
    exact List.forall_mem_append.mpr ⟨hout, List.forall_mem_singleton.mpr h.getSegment⟩
  | cons q rest ih =>
    obtain ⟨hkeyq, hkey⟩ := List.forall_mem_cons.mp hkey
    obtain ⟨hyq, hy⟩ := List.forall_mem_cons.mp hy
    rw [segmentLoop] at hok
    split at hok
    case isTrue => exact ih h hout hkey hy hok
    case isFalse =>
      cases hadd : m.addPoint q.1 q.2 with
      | error e =>
        rw [hadd] at hok
        cases hok
      | ok next =>
        obtain ⟨added, m₁⟩ := next
        obtain ⟨hsmall, heps⟩ := h.addPoint hkeyq hyq hadd
        rw [hadd] at hok
        cases added with
        | true => exact ih hsmall hout hkey (heps.symm ▸ hy) hok
        | false =>
          -- the refused point starts the next segment
          change (m₁.addPoint q.1 q.2 >>= _) = _ at hok
          cases hadd' : m₁.addPoint q.1 q.2 with
          | error e =>
            rw [hadd'] at hok
            cases hok
          | ok next =>
            obtain ⟨added', m₂⟩ := next
            obtain ⟨hsmall', heps'⟩ := hsmall.addPoint hkeyq (heps.symm ▸ hyq) hadd'
            rw [hadd'] at hok
            refine ih hsmall' ?_ hkey ((heps'.trans heps).symm ▸ hy) hok
            exact List.forall_mem_append.mpr ⟨hout, List.forall_mem_singleton.mpr hsmall.getSegment⟩

/-- Within these bounds the corners of the segments leave room for 128-bit products. -/
theorem makeSegmentation_small (hkey : ∀ i < n, (inFun i).1 < 2 ^ 64)
    (hy : ∀ i < n, (inFun i).2 + epsilon < 2 ^ 62)
    (hok : makeSegmentation n epsilon inFun = .ok segments) : ∀ s ∈ segments, s.Small := by
  rw [makeSegmentation] at hok
  split at hok
  case isTrue =>
    obtain rfl := Except.ok.inj hok
    exact nofun
  case isFalse hn =>
    have hrest : ∀ {P : ℕ × ℕ → Prop}, (∀ i < n, P (inFun i)) →
        ∀ q ∈ (List.range' 1 (n - 1)).map inFun, P q := by
      intro P hP q hq
      obtain ⟨i, hi, rfl⟩ := List.mem_map.mp hq
      rw [List.mem_range'_1] at hi
      exact hP i (by omega)
    change ((OptModel.new epsilon).addPoint (inFun 0).1 (inFun 0).2 >>= _) = _ at hok
    cases hadd : (OptModel.new epsilon).addPoint (inFun 0).1 (inFun 0).2 with
    | error e =>
      rw [hadd] at hok
      cases hok
    | ok next =>
      obtain ⟨added, m₁⟩ := next
      obtain ⟨hsmall, heps⟩ := (OptModel.Small.new epsilon).addPoint (hkey 0 (by omega))
        (hy 0 (by omega)) hadd
      rw [hadd] at hok
      exact segmentLoop_small hsmall (List.forall_mem_nil _) (hrest hkey) (hrest (heps.symm ▸ hy))
        hok

theorem forall_of_mapM {α β : Type} {g : α → Except PgmFault β} {P : β → Prop} {as : List α}
    {bs : List β} (h : ∀ a ∈ as, ∀ b, g a = .ok b → P b) (hok : as.mapM g = .ok bs) :
    ∀ b ∈ bs, P b := by
  induction as generalizing bs with
  | nil =>
    obtain rfl := Except.ok.inj hok
    exact nofun
  | cons a as ih =>
    obtain ⟨hfirst, hrest⟩ := List.forall_mem_cons.mp h
    rw [List.mapM_cons] at hok
    cases hb : g a with
    | error e =>
      rw [hb] at hok
      cases hok
    | ok b =>
      rw [hb] at hok
      change (as.mapM g >>= _) = _ at hok
      cases hbs : as.mapM g with
      | error e =>
        rw [hbs] at hok
        cases hok
      | ok bs' =>
        rw [hbs] at hok
        obtain rfl := Except.ok.inj hok
        exact List.forall_mem_cons.mpr ⟨hfirst b hb, ih hrest hbs⟩

theorem makeSegmentationPar_small {parallelism : ℕ} (hkey : ∀ i < n, (inFun i).1 < 2 ^ 64)
    (hy : ∀ i < n, (inFun i).2 + epsilon < 2 ^ 62)
    (hok : makeSegmentationPar parallelism n epsilon inFun = .ok segments) :
    ∀ s ∈ segments, s.Small := by
  rw [makeSegmentationPar] at hok
  split at hok
  case isTrue => exact makeSegmentation_small hkey hy hok
  case isFalse =>
    simp only at hok
    generalize hg : (fun i => _ : ℕ → Except PgmFault (List CanonicalSegment)) = g at hok
    cases hresults : (List.range parallelism).mapM g with
    | error e =>
      rw [hresults] at hok
      cases hok
    | ok results =>
      rw [hresults] at hok
      obtain rfl := Except.ok.inj hok
      have hall : ∀ segments ∈ results, ∀ s ∈ segments, s.Small := by
        refine forall_of_mapM (fun i hi segments hchunk => ?_) hresults
        have hlast := chunkLast_le n (List.mem_range.mp hi)
        rw [← hg] at hchunk
        simp only at hchunk
        split_ifs at hchunk
        · obtain rfl := Except.ok.inj hchunk
          exact nofun
        · exact makeSegmentation_small (fun j hj => hkey _ (by omega)) (fun j hj => hy _ (by omega))
            hchunk
      intro s hs
      obtain ⟨segments, hsegments, hs⟩ := List.mem_flatten.mp hs
      exact hall segments hsegments s hs

end Small

/-- Of sorted points, with equal keys or not, `make_segmentation` makes the fewest segments whose
lines keep within `epsilon`. -/
theorem makeSegmentation_minimal (n epsilon : ℕ) (inFun : ℕ → ℕ × ℕ) (he : 0 < epsilon)
    (hsorted : ∀ i j, i ≤ j → j < n → (inFun i).1 ≤ (inFun j).1)
    (hkey : ∀ i < n, (inFun i).1 < 2 ^ 64) (hy : ∀ i < n, (inFun i).2 + epsilon < 2 ^ 62) :
    ∃ runs segments, makeSegmentation n epsilon inFun = .ok segments ∧
      (∀ s ∈ segments, s.Small) ∧
      Segmented epsilon (firstOfEqual (points n inFun)) runs segments ∧
      ∀ cuts, Cuts (Fits epsilon) (firstOfEqual (points n inFun)) cuts →
        segments.length ≤ cuts.length := by
  obtain ⟨runs, segments, hok, hruns⟩ := makeSegmentation_spec n inFun he hsorted fun i hi =>
    (Nat.le_add_right _ epsilon).trans_lt ((hy i hi).trans (by norm_num))
  exact ⟨runs, segments, hok, makeSegmentation_small hkey hy hok, hruns.segmented,
    fun cuts => hruns.length_le⟩

/-- Pairs of equal keys. -/
def pairedKeys (i : ℕ) : ℕ × ℕ := (i / 2, i)

theorem pairedKeys_sorted (n i j : ℕ) (hij : i ≤ j) (_ : j < n) :
    (pairedKeys i).1 ≤ (pairedKeys j).1 :=
  Nat.div_le_div_right hij

theorem pairedKeys_word {n : ℕ} (hn : n ≤ 2 ^ 61) : ∀ i < n, (pairedKeys i).1 < 2 ^ 64 :=
  fun i hi => (Nat.div_le_self i 2).trans_lt (hi.trans_le (hn.trans (by norm_num)))

theorem pairedKeys_small {n epsilon : ℕ} (hn : n + epsilon ≤ 2 ^ 62) :
    ∀ i < n, (pairedKeys i).2 + epsilon < 2 ^ 62 :=
  fun _ hi => (Nat.add_lt_add_right hi epsilon).trans_le hn

theorem makeSegmentation_minimal_paired :
    ∃ runs segments, makeSegmentation 10 1 pairedKeys = .ok segments ∧
      (∀ s ∈ segments, s.Small) ∧
      Segmented 1 (firstOfEqual (points 10 pairedKeys)) runs segments ∧
      ∀ cuts, Cuts (Fits 1) (firstOfEqual (points 10 pairedKeys)) cuts →
        segments.length ≤ cuts.length :=
  makeSegmentation_minimal 10 1 pairedKeys (by decide) (pairedKeys_sorted 10) (by decide)
    (by decide)

/-- The threads' segments cover the same points, and there are at most as many more than the
sequential ones as there are places between two chunks. -/
theorem makeSegmentationPar_le (parallelism n epsilon : ℕ) (inFun : ℕ → ℕ × ℕ)
    (hpar : 1 ≤ parallelism) (he : ¬ 2 ^ 32 ∣ epsilon)
    (hsorted : ∀ i j, i ≤ j → j < n → (inFun i).1 ≤ (inFun j).1)
    (hkey : ∀ i < n, (inFun i).1 < 2 ^ 64) (hy : ∀ i < n, (inFun i).2 + epsilon < 2 ^ 62) :
    ∃ runs segments sequential, makeSegmentationPar parallelism n epsilon inFun = .ok segments ∧
      makeSegmentation n epsilon inFun = .ok sequential ∧
      (∀ s ∈ segments, s.Small) ∧ (∀ s ∈ sequential, s.Small) ∧
      Segmented epsilon (firstOfEqual (points n inFun)) runs segments ∧
      sequential.length ≤ segments.length ∧
      segments.length ≤ sequential.length + extraSegments parallelism n := by
  have hpos : 0 < epsilon := Nat.pos_of_ne_zero fun hzero => he (hzero ▸ dvd_zero _)
  have hword : ∀ i < n, (inFun i).2 < 2 ^ 64 := fun i hi =>
    (Nat.le_add_right _ epsilon).trans_lt ((hy i hi).trans (by norm_num))
  obtain ⟨runs, segments, hok, hruns, hle⟩ := makeSegmentationPar_spec hpar he hsorted hword
  obtain ⟨runs', sequential, hok', hruns'⟩ := makeSegmentation_spec n inFun hpos hsorted hword
  refine ⟨runs, segments, sequential, hok, hok', makeSegmentationPar_small hkey hy hok,
    makeSegmentation_small hkey hy hok', hruns, ?_, ?_⟩
  · rw [← hruns.segments.length_eq]
    exact hruns'.length_le hruns.cuts
  · rw [← hruns'.segments.length_eq]
    exact hle runs' hruns'.greedy.toCuts

theorem makeSegmentationPar_le_paired :
    ∃ runs segments sequential, makeSegmentationPar 4 40000 64 pairedKeys = .ok segments ∧
      makeSegmentation 40000 64 pairedKeys = .ok sequential ∧
      (∀ s ∈ segments, s.Small) ∧ (∀ s ∈ sequential, s.Small) ∧
      Segmented 64 (firstOfEqual (points 40000 pairedKeys)) runs segments ∧
      sequential.length ≤ segments.length ∧
      segments.length ≤ sequential.length + extraSegments 4 40000 :=
  makeSegmentationPar_le 4 40000 64 pairedKeys (by decide) (by decide) (pairedKeys_sorted 40000)
    (pairedKeys_word (by decide)) (pairedKeys_small (by decide))

/-- A larger error bound needs no more segments, apart from the places between two chunks. -/
theorem makeSegmentationPar_antitone (parallelism n epsilon epsilon' : ℕ) (inFun : ℕ → ℕ × ℕ)
    (hpar : 1 ≤ parallelism) (he : ¬ 2 ^ 32 ∣ epsilon) (he' : ¬ 2 ^ 32 ∣ epsilon')
    (hle : epsilon ≤ epsilon')
    (hsorted : ∀ i j, i ≤ j → j < n → (inFun i).1 ≤ (inFun j).1)
    (hkey : ∀ i < n, (inFun i).1 < 2 ^ 64) (hy : ∀ i < n, (inFun i).2 + epsilon' < 2 ^ 62) :
    ∃ segments segments', makeSegmentationPar parallelism n epsilon inFun = .ok segments ∧
      makeSegmentationPar parallelism n epsilon' inFun = .ok segments' ∧
      (∀ s ∈ segments, s.Small) ∧ (∀ s ∈ segments', s.Small) ∧
      segments'.length ≤ segments.length + extraSegments parallelism n := by
  have hword : ∀ i < n, (inFun i).2 < 2 ^ 64 := fun i hi =>
    (Nat.le_add_right _ epsilon').trans_lt ((hy i hi).trans (by norm_num))
  obtain ⟨runs, segments, hok, hruns, -⟩ := makeSegmentationPar_spec hpar he hsorted hword
  obtain ⟨_, segments', hok', -, hmin⟩ := makeSegmentationPar_spec hpar he' hsorted hword
  refine ⟨segments, segments', hok, hok',
    makeSegmentationPar_small hkey (fun i hi => (Nat.add_le_add_left hle _).trans_lt (hy i hi)) hok,
    makeSegmentationPar_small hkey hy hok', ?_⟩
  rw [← hruns.segments.length_eq]
  exact hmin runs (hruns.cuts.mono fun _ => Fits.mono hle)

theorem makeSegmentationPar_antitone_paired :
    ∃ segments segments', makeSegmentationPar 4 40000 64 pairedKeys = .ok segments ∧
      makeSegmentationPar 4 40000 128 pairedKeys = .ok segments' ∧
      (∀ s ∈ segments, s.Small) ∧ (∀ s ∈ segments', s.Small) ∧
      segments'.length ≤ segments.length + extraSegments 4 40000 :=
  makeSegmentationPar_antitone 4 40000 64 128 pairedKeys (by decide) (by decide) (by decide)
    (by decide) (pairedKeys_sorted 40000) (pairedKeys_word (by decide))
    (pairedKeys_small (by decide))

end PimLex.Pgm
