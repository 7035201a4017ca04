import PimLex.Lock.SectionFair
import PimLex.PageLookup

/-!
# The calls on buffer pages, access by access

A page is a count, an array of keys and an array of pointers to payloads that are
allocated one by one. Its three calls read and write these one word at a time,
inside the lock of the page: an insertion searches, moves the keys behind its slot
up by one, then the pointers, and fills the gap. Each call alone does what the page
operation says, so threads that share pages see the page operations, one after the
other. The exception is an update of a key below all keys of its page: it writes
through the word in front of the pointers, which is the last key, and there is no
telling where to. Such a call is not followed beyond that write.
-/

namespace PimLex

open Search Transition

/-- The calls on a page. -/
inductive PageCall where
  | insertPage (key : DTYPE) (val : StringPayload)
  | findKeyPage (key : DTYPE) (val : StringPayload)
  | updateKeyPage (key : DTYPE) (val : StringPayload)
  deriving DecidableEq, Repr

namespace PageCall

def key : PageCall → DTYPE
  | insertPage key _ | findKeyPage key _ | updateKeyPage key _ => key

def val : PageCall → StringPayload
  | insertPage _ val | findKeyPage _ val | updateKeyPage _ val => val

end PageCall

/-- `buf_page` and the payloads its pointers lead to: those at the addresses below `allocated`
are in use. -/
structure RawPage where
  pageCount : ℕ
  bufKey : ℕ → DTYPE
  bufPayload : ℕ → ℕ
  payloads : ℕ → StringPayload
  allocated : ℕ

/-- Where a call is; each is one access to the page away from the next. -/
inductive PagePc where
  /-- `page_count >= BUF_SIZE`. -/
  | testFull
  /-- `page_count == 0`. -/
  | testEmpty
  | loadCount
  /-- The head of the search loop. -/
  | search (pl pr : ℕ)
  /-- The `memmove` of the keys from `pl` on, with `n` of them yet to move; the last goes first. -/
  | moveKeys (pl n : ℕ)
  | movePayloads (pl n : ℕ)
  /-- `buf_key[pl] = key`. -/
  | storeKey (pl : ℕ)
  /-- `buf_payload[pl] = new string_payload()`, which leaves the bytes as they are. -/
  | allocate (pl : ℕ)
  /-- `*buf_payload[pl] = *val`. -/
  | storePayload (pl : ℕ)
  /-- `page_count++`. -/
  | increment
  /-- `*buf_payload[pl - 1] = *val`. -/
  | overwrite (pl : ℕ)
  | finished (ret : Bool)
  deriving DecidableEq, Repr

/-- A call and where it is. -/
structure PageLocal where
  call : PageCall
  pc : PagePc
  deriving DecidableEq, Repr

namespace RawPage

/-- After the search: the slot is `pl`. -/
def found (raw : RawPage) (pl : ℕ) : PageCall → PagePc
  | .insertPage _ _ => .moveKeys pl (raw.pageCount - pl)
  -- `val = buf_payload[pl - 1]` sets the parameter
  | .findKeyPage _ _ => .finished true
  | .updateKeyPage _ _ => .overwrite pl

/-- The next access of a call. -/
def act (raw : RawPage) (c : PageCall) : PagePc → RawPage × PagePc
  | .testFull => (raw, if raw.pageCount ≥ bufSize then .finished false else .testEmpty)
  | .testEmpty =>
    if raw.pageCount = 0 then
      match c with
      | .insertPage _ _ => (raw, .storeKey 0)
      | _ => (raw, .finished false)
    else (raw, .loadCount)
  | .loadCount => (raw, .search 0 raw.pageCount)
  | .search pl pr =>
    if pl < pr then
      let pmid := pl + (pr - pl) / 2
      (raw, if raw.bufKey pmid ≤ c.key then .search (pmid + 1) pr else .search pl pmid)
    else (raw, raw.found pl c)
  | .moveKeys pl 0 => (raw, .movePayloads pl (raw.pageCount - pl))
  | .moveKeys pl (n + 1) =>
    ({ raw with bufKey := Function.update raw.bufKey (pl + n + 1) (raw.bufKey (pl + n)) },
      .moveKeys pl n)
  | .movePayloads pl 0 => (raw, .storeKey pl)
  | .movePayloads pl (n + 1) =>
    ({ raw with
        bufPayload := Function.update raw.bufPayload (pl + n + 1) (raw.bufPayload (pl + n)) },
      .movePayloads pl n)
  | .storeKey pl => ({ raw with bufKey := Function.update raw.bufKey pl c.key }, .allocate pl)
  | .allocate pl =>
    ({ raw with
        bufPayload := Function.update raw.bufPayload pl raw.allocated
        allocated := raw.allocated + 1 },
      .storePayload pl)
  | .storePayload pl =>
    ({ raw with payloads := Function.update raw.payloads (raw.bufPayload pl) c.val }, .increment)
  | .increment => ({ raw with pageCount := raw.pageCount + 1 }, .finished true)
  | .overwrite pl =>
    -- in front of the array is `buf_key[15]`: the call goes no further
    if pl = 0 then (raw, .overwrite pl)
    else
      ({ raw with payloads := Function.update raw.payloads (raw.bufPayload (pl - 1)) c.val },
        .finished true)
  | .finished ret => (raw, .finished ret)

end RawPage

/-- The three calls between `get_lock` and `release_lock`. -/
def pageProcedure : Procedure RawPage PageLocal PageCall Bool where
  start
    | .insertPage key val => ⟨.insertPage key val, .testFull⟩
    | c => ⟨c, .testEmpty⟩
  act raw l := let (raw, pc) := raw.act l.call l.pc; (raw, ⟨l.call, pc⟩)
  result
    | ⟨_, .finished ret⟩ => some ret
    | _ => none

namespace BufPage

/-- What a call returns and leaves, as a page operation. -/
def call (page : BufPage) : PageCall → Bool × BufPage
  | .insertPage key val => page.insertPage key val
  | .findKeyPage key val => ((page.findKeyPage key val).found, (page.findKeyPage key val).page)
  | .updateKeyPage key val =>
    ((page.updateKeyPage key val).found, (page.updateKeyPage key val).page)

end BufPage

/-- The call is an update that writes in front of the page's pointers. -/
def BufPage.WritesInFront (page : BufPage) : PageCall → Prop
  | .updateKeyPage key _ => page.pageCount ≠ 0 ∧ page.slot key = 0
  | _ => False

/-- A call that writes nowhere else does what the page operation says. -/
def BufPage.Does (page : BufPage) (c : PageCall) (ret : Bool) (page' : BufPage) : Prop :=
  ¬ page.WritesInFront c ∧ Computes BufPage.call page c ret page'

/-- The arrays hold the page: the slots below the count its keys, and pointers of their own to its
payloads. -/
structure RawPage.Holds (raw : RawPage) (page : BufPage) : Prop where
  count : raw.pageCount = page.pageCount
  key : ∀ i < page.pageCount, raw.bufKey i = page.keyAt i
  payload : ∀ i < page.pageCount, page.bufPayload[i]? = some (raw.payloads (raw.bufPayload i))
  inUse : ∀ i < page.pageCount, raw.bufPayload i < raw.allocated
  own : ∀ i < page.pageCount, ∀ j < page.pageCount, raw.bufPayload i = raw.bufPayload j → i = j

/-- An array after `n` of its entries from `pl` on have moved up by one. -/
def shifted {α : Type} (f : ℕ → α) (pl n : ℕ) (i : ℕ) : α :=
  if pl < i ∧ i ≤ pl + n then f (i - 1) else f i

section Shift

variable {α : Type} {f : ℕ → α} {pl n i : ℕ} {a : α}

@[simp] theorem shifted_zero : shifted f pl 0 = f := by
  funext i
  rw [shifted, if_neg (by omega)]

/-- The last entry moves first, so nothing is overwritten that is yet to move. -/
theorem shifted_succ :
    shifted (Function.update f (pl + n + 1) (f (pl + n))) pl n = shifted f pl (n + 1) := by
  funext i
  simp only [shifted, Function.update_apply]
  split_ifs <;> first | rfl | omega | (congr 1; omega)

/-- The array with the gap filled. -/
theorem update_shifted_apply (hi : i ≤ pl + n) :
    Function.update (shifted f pl n) pl a i =
      if i < pl then f i else if i = pl then a else f (i - 1) := by
  simp only [shifted, Function.update_apply]
  split_ifs <;> first | rfl | omega

end Shift

theorem BufPage.getElem?_shiftIn {α : Type} (l : List α) {pl : ℕ} (hpl : pl ≤ l.length) (a : α)
    (i : ℕ) :
    (shiftIn l pl a)[i]? = if i < pl then l[i]? else if i = pl then some a else l[i - 1]? := by
  have hlen : (l.take pl).length = pl := List.length_take_of_le hpl
  rw [shiftIn]
  split_ifs with hlt heq
  · rw [List.getElem?_append_left (by omega), List.getElem?_take_of_lt hlt]
  · rw [List.getElem?_append_right (by omega), hlen, heq, Nat.sub_self]
    rfl
  · rw [List.getElem?_append_right (by omega), hlen]
    obtain ⟨m, hm⟩ : ∃ m, i - pl = m + 1 := ⟨i - pl - 1, by omega⟩
    rw [hm, List.getElem?_cons_succ, List.getElem?_drop]
    congr 1
    omega

section Exec

variable {raw : RawPage} {page : BufPage} {c : PageCall} {pl pr n : ℕ} {y : RawPage × PageLocal}

/-- The search loop ends at the slot that its halving finds. -/
theorem exec_search (raw : RawPage) (c : PageCall) {fuel : ℕ} (h : pr - pl ≤ fuel) :
    pageProcedure.Exec (raw, ⟨c, .search pl pr⟩)
      (raw, ⟨c, raw.found (bisectFuel (fun i => decide (raw.bufKey i ≤ c.key)) fuel pl pr) c⟩) := by
  induction fuel generalizing pl pr with
  | zero =>
    refine .cons rfl ?_
    simp only [pageProcedure, RawPage.act, if_neg (show ¬ pl < pr by omega), bisectFuel]
    exact .refl _ _
  | succ fuel ih =>
    refine .cons rfl ?_
    by_cases hlt : pl < pr
    · by_cases hkey : raw.bufKey (pl + (pr - pl) / 2) ≤ c.key
      · simp only [pageProcedure, RawPage.act, if_pos hlt, bisectFuel, decide_true, hkey]
        exact ih (by omega)
      · simp only [pageProcedure, RawPage.act, if_pos hlt, bisectFuel, decide_false, hkey,
          Bool.false_eq_true, if_false]
        exact ih (by omega)
    · simp only [pageProcedure, RawPage.act, if_neg hlt, bisectFuel]
      exact .refl _ _

/-- On a page that is not empty every call finds its slot. -/
theorem RawPage.Holds.exec_slot (h : raw.Holds page) (hpos : page.pageCount ≠ 0) :
    pageProcedure.Exec (raw, ⟨c, .testEmpty⟩) (raw, ⟨c, raw.found (page.slot c.key) c⟩) := by
  have hslot : bisectFuel (fun i => decide (raw.bufKey i ≤ c.key)) raw.pageCount 0
      raw.pageCount = page.slot c.key := by
    rw [h.count]
    exact bisectFuel_congr _ fun i _ hi => by rw [h.key i hi]
  have htest : pageProcedure.act raw ⟨c, .testEmpty⟩ = (raw, ⟨c, .loadCount⟩) := by
    simp only [pageProcedure, RawPage.act, if_neg (h.count ▸ hpos)]
  refine .cons rfl ?_
  rw [htest, ← hslot]
  exact .cons rfl (exec_search raw c le_rfl)

theorem exec_moveKeys (raw : RawPage) (c : PageCall) (pl n : ℕ) :
    pageProcedure.Exec (raw, ⟨c, .moveKeys pl n⟩)
      ({ raw with bufKey := shifted raw.bufKey pl n }, ⟨c, .moveKeys pl 0⟩) := by
  induction n generalizing raw with
  | zero =>
    rw [shifted_zero]
    exact .refl _ _
  | succ n ih =>
    refine .cons rfl ?_
    rw [← shifted_succ]
    exact ih { raw with bufKey := Function.update raw.bufKey (pl + n + 1) (raw.bufKey (pl + n)) }

theorem exec_movePayloads (raw : RawPage) (c : PageCall) (pl n : ℕ) :
    pageProcedure.Exec (raw, ⟨c, .movePayloads pl n⟩)
      ({ raw with bufPayload := shifted raw.bufPayload pl n }, ⟨c, .movePayloads pl 0⟩) := by
  induction n generalizing raw with
  | zero =>
    rw [shifted_zero]
    exact .refl _ _
  | succ n ih =>
    refine .cons rfl ?_
    rw [← shifted_succ]
    exact ih { raw with
      bufPayload := Function.update raw.bufPayload (pl + n + 1) (raw.bufPayload (pl + n)) }

/-- The page after an insertion at slot `pl` has moved `n` entries. -/
def RawPage.filled (raw : RawPage) (c : PageCall) (pl n : ℕ) : RawPage where
  pageCount := raw.pageCount + 1
  bufKey := Function.update (shifted raw.bufKey pl n) pl c.key
  bufPayload := Function.update (shifted raw.bufPayload pl n) pl raw.allocated
  payloads := Function.update raw.payloads raw.allocated c.val
  allocated := raw.allocated + 1

/-- The stores at the end of an insertion. -/
theorem exec_storeKey (raw : RawPage) (c : PageCall) (pl : ℕ) :
    pageProcedure.Exec (raw, ⟨c, .storeKey pl⟩) (raw.filled c pl 0, ⟨c, .finished true⟩) := by
  refine .cons rfl (.cons rfl (.cons rfl (.cons rfl ?_)))
  simp only [pageProcedure, RawPage.act, RawPage.filled, shifted_zero, Function.update_self]
  exact .refl _ _

/-- From the search of an insertion to its end. -/
theorem exec_found (raw : RawPage) (key : DTYPE) (val : StringPayload) (pl : ℕ) :
    pageProcedure.Exec (raw, ⟨.insertPage key val, raw.found pl (.insertPage key val)⟩)
      (raw.filled (.insertPage key val) pl (raw.pageCount - pl),
        ⟨.insertPage key val, .finished true⟩) := by
  refine (exec_moveKeys raw _ pl _).trans (.cons rfl ?_)
  refine (exec_movePayloads _ _ pl _).trans (.cons rfl ?_)
  have hstore := exec_storeKey { raw with
    bufKey := shifted raw.bufKey pl (raw.pageCount - pl)
    bufPayload := shifted raw.bufPayload pl (raw.pageCount - pl) } (.insertPage key val) pl
  simp only [RawPage.filled, shifted_zero] at hstore
  exact hstore

end Exec

section Holds

variable {raw : RawPage} {page : BufPage} {key : DTYPE} {val : StringPayload} {pl : ℕ}

theorem BufPage.bufPayload_insertPage (h : (page.insertPage key val).1 = true) :
    (page.insertPage key val).2.bufPayload = shiftIn page.bufPayload (page.slot key) val := by
  have hsnd : ∀ page : BufPage, page.entries.map Prod.snd = page.bufPayload := fun page =>
    List.map_snd_zip page.length_eq.le
  rw [← hsnd, entries_insertPage h, ← hsnd page]
  simp only [shiftIn, List.map_append, List.map_cons, List.map_take, List.map_drop]

theorem BufPage.slot_le (page : BufPage) (key : DTYPE) : page.slot key ≤ page.pageCount :=
  upperBound_le _ _ (Nat.zero_le _)

/-- What an accepted insertion leaves holds the page with the new entry. -/
theorem RawPage.Holds.insertPage (h : raw.Holds page)
    (hins : (page.insertPage key val).1 = true) :
    (raw.filled (.insertPage key val) (page.slot key) (raw.pageCount - page.slot key)).Holds
      (page.insertPage key val).2 := by
  have hcount := BufPage.pageCount_insertPage hins
  have hslot := page.slot_le key
  have hrest : page.slot key + (raw.pageCount - page.slot key) = page.pageCount := by
    rw [h.count]
    omega
  have hpayload : ∀ i ≤ page.pageCount,
      Function.update (shifted raw.bufPayload (page.slot key) (raw.pageCount - page.slot key))
        (page.slot key) raw.allocated i = if i < page.slot key then raw.bufPayload i
          else if i = page.slot key then raw.allocated else raw.bufPayload (i - 1) :=
    fun i hi => update_shifted_apply (hrest ▸ hi)
  have hlen : page.slot key ≤ page.bufPayload.length := page.length_eq ▸ hslot
  refine ⟨by rw [hcount, ← h.count]; rfl, fun i hi => ?key, fun i hi => ?payload,
    fun i hi => ?inUse, fun i hi j hj => ?own⟩
  all_goals rw [hcount, Nat.lt_succ_iff] at hi
  case key =>
    simp only [RawPage.filled]
    rw [BufPage.keyAt, BufPage.bufKey_insertPage hins, List.getD_eq_getElem?_getD,
      BufPage.getElem?_shiftIn _ hslot, update_shifted_apply (hrest ▸ hi)]
    split_ifs with hlt heq
    · rw [h.key i (by omega), BufPage.keyAt, List.getD_eq_getElem?_getD]
    · rfl
    · rw [h.key (i - 1) (by omega), BufPage.keyAt, List.getD_eq_getElem?_getD]
  case payload =>
    simp only [RawPage.filled]
    rw [BufPage.bufPayload_insertPage hins, BufPage.getElem?_shiftIn _ hlen, hpayload i hi]
    split_ifs with hlt heq
    · rw [Function.update_of_ne (h.inUse i (by omega)).ne, h.payload i (by omega)]
    · rw [Function.update_self]
      rfl
    · rw [Function.update_of_ne (h.inUse (i - 1) (by omega)).ne, h.payload (i - 1) (by omega)]
  case inUse =>
    simp only [RawPage.filled]
    rw [hpayload i hi]
    split_ifs with hlt heq
    · exact (h.inUse i (by omega)).trans (Nat.lt_succ_self _)
    · exact Nat.lt_succ_self _
    · exact (h.inUse (i - 1) (by omega)).trans (Nat.lt_succ_self _)
  case own =>
    rw [hcount, Nat.lt_succ_iff] at hj
    simp only [RawPage.filled]
    rw [hpayload i hi, hpayload j hj]
    have hold : ∀ a < page.pageCount, raw.bufPayload a ≠ raw.allocated := fun a ha =>
      (h.inUse a ha).ne
    intro heq
    -- an old pointer is not the new one, and equal old pointers come from one slot
    split_ifs at heq with hi1 hj1 hj2 hi2 hj1 hj2 hj1 hj2
    · exact h.own i (by omega) j (by omega) heq
    · exact absurd heq (hold i (by omega))
    · have hsame := h.own i (by omega) (j - 1) (by omega) heq
      omega
    · exact absurd heq.symm (hold j (by omega))
    · rw [hi2, hj2]
    · exact absurd heq.symm (hold (j - 1) (by omega))
    · have hsame := h.own (i - 1) (by omega) j (by omega) heq
      omega
    · exact absurd heq (hold (i - 1) (by omega))
    · have hsame := h.own (i - 1) (by omega) (j - 1) (by omega) heq
      omega

/-- A payload stored through one pointer is not seen through another. -/
theorem RawPage.Holds.storePayload (h : raw.Holds page) (hpl : pl < page.pageCount) :
    RawPage.Holds { raw with payloads := Function.update raw.payloads (raw.bufPayload pl) val }
      (page.storePayload pl val) := by
  rw [BufPage.storePayload, if_pos (Int.natCast_nonneg pl)]
  refine ⟨h.count, h.key, fun i hi => ?_, h.inUse, h.own⟩
  simp only [Int.toNat_natCast]
  have hlt : pl < page.bufPayload.length := page.length_eq ▸ hpl
  rcases eq_or_ne i pl with rfl | hne
  · rw [List.getElem?_set_self hlt, Function.update_self]
  · have hptr : raw.bufPayload i ≠ raw.bufPayload pl := fun heq => hne (h.own i hi pl hpl heq)
    rw [List.getElem?_set_ne hne.symm, Function.update_of_ne hptr, h.payload i hi]

theorem returns_of_exec {raw' : RawPage} {c : PageCall} {ret : Bool}
    (h : pageProcedure.Exec (raw, pageProcedure.start c) (raw', ⟨c, .finished ret⟩)) :
    pageProcedure.Returns raw c ret raw' :=
  ⟨_, h, rfl⟩

/-- A search and an update leave an empty page at once. -/
theorem returns_empty {c : PageCall} (hstart : pageProcedure.start c = ⟨c, .testEmpty⟩)
    (hact : raw.act c .testEmpty = (raw, .finished false)) :
    pageProcedure.Returns raw c false raw := by
  refine returns_of_exec ?_
  rw [hstart]
  refine .cons rfl ?_
  simp only [pageProcedure, hact]
  exact .refl _ _

theorem RawPage.Holds.returns_insert (h : raw.Holds page) (key : DTYPE) (val : StringPayload) :
    ∃ raw', pageProcedure.Returns raw (.insertPage key val) (page.insertPage key val).1 raw' ∧
      raw'.Holds (page.insertPage key val).2 := by
  cases hins : (page.insertPage key val).1 with
  | false =>
    have hfull : raw.pageCount ≥ bufSize := by
      rw [h.count]
      by_contra hlt
      rw [BufPage.insertPage_fst.mpr (Nat.not_le.mp hlt)] at hins
      exact absurd hins.symm Bool.false_ne_true
    refine ⟨raw, returns_of_exec ?_, ?_⟩
    · refine .cons rfl ?_
      simp only [pageProcedure, RawPage.act, if_pos hfull]
      exact .refl _ _
    · rwa [BufPage.insertPage_refused hins]
  | true =>
    have hroom : ¬ raw.pageCount ≥ bufSize := by
      rw [h.count]
      exact Nat.not_le.mpr (BufPage.insertPage_fst.mp hins)
    have hfirst : pageProcedure.act raw ⟨.insertPage key val, .testFull⟩ =
        (raw, ⟨.insertPage key val, .testEmpty⟩) := by
      simp only [pageProcedure, RawPage.act, if_neg hroom]
    refine ⟨_, returns_of_exec (.cons rfl ?_), h.insertPage hins⟩
    change pageProcedure.Exec (pageProcedure.act raw ⟨.insertPage key val, .testFull⟩) _
    rw [hfirst]
    by_cases hempty : page.pageCount = 0
    · -- the first entry goes to slot 0 without a search, where the search would put it
      have hslot : page.slot key = 0 := Nat.le_zero.mp (hempty ▸ page.slot_le key)
      have hcount : raw.pageCount = 0 := h.count.trans hempty
      have htest : pageProcedure.act raw ⟨.insertPage key val, .testEmpty⟩ =
          (raw, ⟨.insertPage key val, .storeKey 0⟩) := by
        simp only [pageProcedure, RawPage.act, if_pos hcount]
      rw [hslot, hcount]
      refine .cons rfl ?_
      rw [htest]
      exact exec_storeKey raw _ 0
    · exact (h.exec_slot hempty).trans (exec_found raw key val _)

theorem RawPage.Holds.returns_find (h : raw.Holds page) (key : DTYPE) (val : StringPayload) :
    ∃ raw', pageProcedure.Returns raw (.findKeyPage key val)
        (page.findKeyPage key val).found raw' ∧ raw'.Holds (page.findKeyPage key val).page := by
  rw [BufPage.findKeyPage]
  by_cases hempty : page.pageCount = 0
  · rw [if_pos hempty]
    refine ⟨raw, returns_empty rfl ?_, h⟩
    simp only [RawPage.act, if_pos (h.count.trans hempty)]
  · rw [if_neg hempty]
    exact ⟨raw, returns_of_exec (h.exec_slot hempty), h⟩

theorem RawPage.Holds.exec_update (h : raw.Holds page) (key : DTYPE) (val : StringPayload)
    (hpos : page.pageCount ≠ 0) :
    pageProcedure.Exec (raw, pageProcedure.start (.updateKeyPage key val))
      (raw, ⟨.updateKeyPage key val, .overwrite (page.slot key)⟩) :=
  h.exec_slot hpos

theorem RawPage.Holds.returns_update (h : raw.Holds page) (key : DTYPE) (val : StringPayload)
    (hin : ¬ page.WritesInFront (.updateKeyPage key val)) :
    ∃ raw', pageProcedure.Returns raw (.updateKeyPage key val)
        (page.updateKeyPage key val).found raw' ∧
      raw'.Holds (page.updateKeyPage key val).page := by
  rw [BufPage.updateKeyPage]
  by_cases hempty : page.pageCount = 0
  · rw [if_pos hempty]
    refine ⟨raw, returns_empty rfl ?_, h⟩
    simp only [RawPage.act, if_pos (h.count.trans hempty)]
  · rw [if_neg hempty]
    have hslot := h.exec_update key val hempty
    have hle := page.slot_le key
    cases hpl : page.slot key with
    | zero => exact absurd ⟨hempty, hpl⟩ hin
    | succ i =>
      rw [hpl] at hslot
      have hindex : ((i + 1 : ℕ) : ℤ) - 1 = i := by omega
      rw [hindex]
      exact ⟨_, returns_of_exec (hslot.concat rfl), h.storePayload (by omega)⟩

/-- Each call that writes to the page alone does what the page operation says. -/
theorem RawPage.Holds.returns (h : raw.Holds page) (c : PageCall) (hin : ¬ page.WritesInFront c) :
    ∃ raw', pageProcedure.Returns raw c (page.call c).1 raw' ∧ raw'.Holds (page.call c).2 := by
  cases c with
  | insertPage key val => exact h.returns_insert key val
  | findKeyPage key val => exact h.returns_find key val
  | updateKeyPage key val => exact h.returns_update key val hin

theorem RawPage.Holds.not_writesInFront {c : PageCall} {r : Bool} {raw' : RawPage}
    (h : raw.Holds page) (hreturns : pageProcedure.Returns raw c r raw') :
    ¬ page.WritesInFront c := by
  intro hfront
  cases c with
  | insertPage | findKeyPage => exact hfront
  | updateKeyPage key val =>
    have hexec := h.exec_update key val hfront.1
    rw [hfront.2] at hexec
    exact hreturns.false_of_exec hexec rfl rfl

/-- What a call does alone with a page, it does to the page it holds. -/
theorem RawPage.Holds.does (raw : RawPage) (page : BufPage) (c : PageCall) (r : Bool)
    (raw' : RawPage) (h : raw.Holds page) (hreturns : pageProcedure.Returns raw c r raw') :
    ∃ page', page.Does c r page' ∧ raw'.Holds page' := by
  have hin := h.not_writesInFront hreturns
  obtain ⟨raw'', hreturns', hpage⟩ := h.returns c hin
  obtain ⟨rfl, rfl⟩ := hreturns.unique hreturns'
  exact ⟨_, ⟨hin, rfl⟩, hpage⟩

end Holds

/-- `init`, whatever the arrays hold before. -/
def RawPage.init (raw : RawPage) : RawPage := { raw with pageCount := 0 }

theorem RawPage.holds_init (raw : RawPage) : raw.init.Holds BufPage.init :=
  ⟨rfl, fun _ hi => absurd hi (Nat.not_lt_zero _), fun _ hi => absurd hi (Nat.not_lt_zero _),
    fun _ hi => absurd hi (Nat.not_lt_zero _), fun _ hi => absurd hi (Nat.not_lt_zero _)⟩

section Linear

variable {ι : Type*} [DecidableEq ι]

/-- Threads that make calls on the pages of an array, from empty pages on. -/
def pageRun (programs : ι → List (ℕ × PageCall)) (pages : ℕ → RawPage) (schedule : List ι) :
    SectionSystem ι ℕ RawPage PageLocal PageCall Bool :=
  sectionRun pageProcedure programs (fun k => (pages k).init) schedule

/-- What the calls that have returned leave is what the page operations leave, one after the
other; a page with nobody inside holds it. -/
theorem exists_pages {programs : ι → List (ℕ × PageCall)} {raws d : ℕ → RawPage}
    {s : SectionSystem ι ℕ RawPage PageLocal PageCall Bool} {n : ℕ → ℕ} {holder : ℕ → Option ι}
    (h : SectionInv pageProcedure programs (fun k => (raws k).init) s n holder d) :
    ∃ pages : ℕ → BufPage,
      Serial (AtObject BufPage.Does) (fun _ => BufPage.init)
        (s.shared.returned.map Prod.snd) pages ∧
      ∀ k, (∀ t, k ∉ (s.threads t).pc.inside) → (s.shared.data k).Holds (pages k) := by
  obtain ⟨pages, hserial, hpages⟩ := h.serial.refine
    (R := fun raws (pages : ℕ → BufPage) => ∀ k, RawPage.Holds (raws k) (pages k))
    (fun k => RawPage.holds_init (raws k)) (AtObject.refine RawPage.Holds.does)
  refine ⟨pages, hserial, fun k hk => ?_⟩
  have hnone : holder k = none := by
    cases hholder : holder k with
    | none => rfl
    | some t => exact absurd ((h.inside t k).mp hholder) (hk t)
  rw [h.free k hnone]
  exact hpages k

/-- However many threads make calls on however many pages, and however their accesses
interleave: the calls that have returned gave the results, in the order in which they returned,
that the page operations give one after the other, and wrote to their pages alone; they are each
thread's calls in its own order; a page with nobody inside is what these operations leave; and a
call that has returned stays in front of all that return later. -/
theorem pageRun_serial (programs : ι → List (ℕ × PageCall)) (raws : ℕ → RawPage)
    (schedule : List ι) :
    ∃ pages : ℕ → BufPage,
      Serial (AtObject BufPage.Does) (fun _ => BufPage.init)
        ((pageRun programs raws schedule).shared.returned.map Prod.snd) pages ∧
      (∀ t, (own t (pageRun programs raws schedule).shared.returned).map Prod.fst ++
        ((pageRun programs raws schedule).threads t).pc.pending ++
        ((pageRun programs raws schedule).threads t).todo = programs t) ∧
      (∀ k, (∀ t, k ∉ ((pageRun programs raws schedule).threads t).pc.inside) →
        ((pageRun programs raws schedule).shared.data k).Holds (pages k)) ∧
      ∀ more, (pageRun programs raws schedule).shared.returned <+:
        (pageRun programs raws (schedule ++ more)).shared.returned := by
  obtain ⟨n, holder, d, h⟩ := exists_sectionInv pageProcedure programs
    (fun k => (raws k).init) schedule
  obtain ⟨pages, hserial, hpages⟩ := exists_pages h
  exact ⟨pages, hserial, h.program, hpages, returned_prefix pageProcedure programs _ schedule⟩

end Linear

section Inserts

/-- The entries that the calls on page `k` were told are in. -/
def accepted (k : ℕ) (log : List ((ℕ × PageCall) × Bool)) : List (DTYPE × StringPayload) :=
  (log.filter fun e => e.1.1 = k ∧ e.2 = true).map fun e => (e.1.2.key, e.1.2.val)

/-- Insertions one after the other, on any pages: a page is sorted, holds what was accepted and
refuses nothing while it has room. -/
theorem serial_insert {log : List ((ℕ × PageCall) × Bool)} {pages : ℕ → BufPage}
    (h : Serial (AtObject BufPage.Does) (fun _ => BufPage.init) log pages)
    (hins : ∀ e ∈ log, ∃ key val, e.1.2 = .insertPage key val) (k : ℕ) :
    (pages k).bufKey.Pairwise (· ≤ ·) ∧ (pages k).entries.Perm (accepted k log) ∧
      (pages k).pageCount = min bufSize ((log.map fun e => e.1.1).count k) := by
  induction h with
  | nil => exact ⟨.nil, .nil, rfl⟩
  | @concat log pages c r pages' _ hdoes ih =>
    obtain ⟨hlog, hlast⟩ := List.forall_mem_append.mp hins
    obtain ⟨hsorted, hentries, hcount⟩ := ih hlog
    obtain ⟨page, ⟨-, hcall⟩, rfl⟩ := hdoes
    obtain ⟨key, val, hc⟩ := hlast _ (List.mem_singleton_self _)
    obtain ⟨k', call⟩ := c
    obtain rfl : call = .insertPage key val := hc
    have hpage : (pages k').insertPage key val = (r, page) := hcall
    rw [List.map_append, List.count_append, List.map_singleton, List.count_singleton]
    rcases eq_or_ne k k' with rfl | hne
    · have hfst := congrArg Prod.fst hpage
      have hsnd := congrArg Prod.snd hpage
      simp only at hfst hsnd
      rw [Function.update_self, if_pos (beq_self_eq_true _)]
      cases r with
      | false =>
        -- refused: the page was full and stays as it is
        have hsame := BufPage.insertPage_refused hfst
        have hfull := mt BufPage.insertPage_fst.mpr (by rw [hfst]; exact Bool.false_ne_true)
        rw [← hsnd, hsame]
        refine ⟨hsorted, ?_, by omega⟩
        simpa [accepted] using hentries
      | true =>
        -- accepted: the entry is new in the page and in the list
        have hroom := BufPage.insertPage_fst.mp hfst
        rw [← hsnd]
        refine ⟨BufPage.sorted_insertPage hsorted hfst, ?_, ?_⟩
        · refine (BufPage.entries_insertPage_perm hfst).trans ?_
          have hnew : accepted k (log ++ [((k, .insertPage key val), true)]) =
              accepted k log ++ [(key, val)] := by
            simp [accepted, PageCall.key, PageCall.val]
          rw [hnew]
          exact (hentries.cons _).trans (List.perm_append_singleton _ _).symm
        · rw [BufPage.pageCount_insertPage hfst]
          omega
    · rw [Function.update_of_ne hne, if_neg (by simpa using hne.symm), Nat.add_zero]
      refine ⟨hsorted, ?_, hcount⟩
      simpa [accepted, hne.symm] using hentries

variable {ι : Type*} [DecidableEq ι] [Fintype ι]

/-- The threads' insertions as calls. -/
def insertCalls (programs : ι → List (ℕ × DTYPE × StringPayload)) (t : ι) : List (ℕ × PageCall) :=
  (programs t).map fun x => (x.1, .insertPage x.2.1 x.2.2)

/-- Threads that insert into pages and get enough turns return from all their calls, if no page is
called `2 ^ 31` times. Then every page is sorted and holds exactly the entries whose calls
returned true, and on every page the calls returned true until it was full. -/
theorem pageRun_insert_done (programs : ι → List (ℕ × DTYPE × StringPayload))
    (raws : ℕ → RawPage) (hfew : ∀ k, ∑ t, ((programs t).map Prod.fst).count k < lockSet) :
    ∃ m, ∀ rounds, Rounds rounds → m ≤ rounds.length →
      (∀ t, (own t (pageRun (insertCalls programs) raws rounds.flatten).shared.returned).map
        Prod.fst = insertCalls programs t) ∧
      ∀ k, ∃ page, ((pageRun (insertCalls programs) raws rounds.flatten).shared.data k).Holds
          page ∧ page.bufKey.Pairwise (· ≤ ·) ∧
        page.entries.Perm (accepted k
          ((pageRun (insertCalls programs) raws rounds.flatten).shared.returned.map Prod.snd)) ∧
        page.pageCount = min bufSize (∑ t, ((programs t).map Prod.fst).count k) := by
  have hcalls : ∀ t, (insertCalls programs t).map Prod.fst = (programs t).map Prod.fst := by
    intro t
    rw [insertCalls, List.map_map]
    rfl
  -- an insertion left alone on its page comes to its end
  obtain ⟨m, hm⟩ := sectionRun_done pageProcedure (insertCalls programs) (fun k => (raws k).init)
    (I := fun raw => ∃ page, raw.Holds page) (fun k => ⟨_, RawPage.holds_init (raws k)⟩)
    (fun raw c r raw' ⟨page, hpage⟩ hreturns =>
      let ⟨page', _, h⟩ := RawPage.Holds.does raw page c r raw' hpage hreturns
      ⟨page', h⟩)
    (fun raw ⟨page, hpage⟩ t c hc => by
      obtain ⟨x, -, rfl⟩ := List.mem_map.mp hc
      obtain ⟨raw', hreturns, -⟩ := hpage.returns_insert x.2.1 x.2.2
      exact ⟨_, raw', hreturns⟩)
    (fun k => by simpa only [hcalls] using hfew k)
  refine ⟨m, fun rounds hrounds hlen => ?_⟩
  obtain ⟨n, holder, d, h⟩ := exists_sectionInv pageProcedure (insertCalls programs)
    (fun k => (raws k).init) rounds.flatten
  obtain ⟨pages, hserial, hpages⟩ := exists_pages h
  have hown : ∀ t, (own t (pageRun (insertCalls programs) raws rounds.flatten).shared.returned).map
      Prod.fst = insertCalls programs t := by
    intro t
    have hprogram := h.program t
    rw [(hm rounds hrounds hlen t).1, (hm rounds hrounds hlen t).2] at hprogram
    simp only [SectionPc.pending, List.append_nil] at hprogram
    exact hprogram
  refine ⟨hown, fun k => ⟨pages k, hpages k fun t => ?_, ?_⟩⟩
  · rw [(hm rounds hrounds hlen t).1]
    exact Option.not_mem_none k
  · -- all calls are insertions, so their order alone gives the pages
    have hins : ∀ e ∈ (pageRun (insertCalls programs) raws rounds.flatten).shared.returned.map
        Prod.snd, ∃ key val, e.1.2 = .insertPage key val := by
      intro e he
      obtain ⟨⟨t, e⟩, hmem, rfl⟩ := List.mem_map.mp he
      have hcall : e.1 ∈ insertCalls programs t := by
        rw [← hown t]
        exact List.mem_map_of_mem (mem_own.mpr hmem)
      obtain ⟨x, -, hx⟩ := List.mem_map.mp hcall
      exact ⟨x.2.1, x.2.2, by rw [← hx]⟩
    obtain ⟨hsorted, hentries, hcount⟩ := serial_insert hserial hins k
    refine ⟨hsorted, hentries, ?_⟩
    rw [hcount, List.map_map]
    -- the calls of a page, counted by threads
    have hsum := count_own (pageRun (insertCalls programs) raws rounds.flatten).shared.returned
      (fun e => e.1.1) k
    have hthread : ∀ t, ((own t (pageRun (insertCalls programs) raws
        rounds.flatten).shared.returned).map fun e => e.1.1).count k =
          ((programs t).map Prod.fst).count k := by
      intro t
      rw [← hcalls t, ← hown t, List.map_map]
      rfl
    rw [Finset.sum_congr rfl fun t _ => hthread t] at hsum
    rw [← hsum]
    rfl

/-- Two threads with one key each for one page. -/
theorem pageRun_insert_done_two :
    ∃ m, ∀ rounds : List (List (Fin 2)), Rounds rounds → m ≤ rounds.length →
      ∃ page, ((pageRun (insertCalls fun t : Fin 2 => [(0, 7 + t, .ofByte 1)])
        (fun _ => ⟨0, fun _ => 0, fun _ => 0, fun _ => .ofByte 0, 0⟩)
        rounds.flatten).shared.data 0).Holds page ∧ page.pageCount = 2 := by
  have hfew : ∀ k, ∑ t : Fin 2,
      (([(0, 7 + (t : ℕ), StringPayload.ofByte 1)] : List (ℕ × DTYPE × StringPayload)).map
        Prod.fst).count k < lockSet := by
    intro k
    refine (Finset.sum_le_sum fun t _ => List.count_le_length).trans_lt ?_
    decide
  obtain ⟨m, hm⟩ := pageRun_insert_done (fun t : Fin 2 => [(0, 7 + t, .ofByte 1)])
    (fun _ => ⟨0, fun _ => 0, fun _ => 0, fun _ => .ofByte 0, 0⟩) hfew
  refine ⟨m, fun rounds hrounds hlen => ?_⟩
  obtain ⟨page, hpage, -, -, hcount⟩ := (hm rounds hrounds hlen).2 0
  exact ⟨page, hpage, hcount⟩

end Inserts

end PimLex
