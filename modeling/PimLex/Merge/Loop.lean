import PimLex.Index

/-!
# The merge loop of one thread

A merge thread walks a slice of the base array and the buffer pages of the same
slice with one cursor each, and stores one entry in the new arrays in each pass
of its loop. The number of passes and the first slot are fixed before the loop,
from the counts of the pages.
-/

namespace PimLex

/-- A key with its payload. -/
abbrev Entry := DTYPE × StringPayload

namespace BufPage

/-- `*buf_payload[i]`; slots past the count are not read. -/
def payloadAt (page : BufPage) (i : ℕ) : StringPayload := page.bufPayload.getD i (.ofByte 0)

end BufPage

/-- What a pass of the loop does: a store into `new_keys` and `new_payloads`, or the message
of its last branch. -/
inductive MergeEvent where
  | write (slot : ℕ) (entry : Entry)
  | error
  deriving DecidableEq

/-- The slot and the entry of a store. -/
def MergeEvent.store : MergeEvent → Option (ℕ × Entry)
  | write slot entry => some (slot, entry)
  | error => none

/-- The bound variables of a merge thread. -/
structure MergeBounds where
  maxPageId : ℕ
  maxOldInputSize : ℕ
  totalOps : ℕ

/-- The base side: `old_key` with its payload, the offset after it, and the end flag. -/
structure OldCursor where
  oldKey : DTYPE
  oldValue : StringPayload
  curOldOff : ℕ
  oldEndFlag : Bool

/-- The buffer side: `buf_key` with its payload, its page, the offset after it, and the end
flag. -/
structure BufCursor where
  bufKey : DTYPE
  bufValue : StringPayload
  pageId : ℕ
  inPageOff : ℕ
  bufEndFlag : Bool

/-- The variables that the loop changes. -/
structure MergeLocals where
  old : OldCursor
  buf : BufCursor
  /-- A `uint32_t` counter of slots. -/
  curNewOff : ℕ

/-- How many values a `uint32_t` has. -/
abbrev word : ℕ := 2 ^ 32

namespace DramIndex

variable {Tree : Type} (idx : DramIndex BufPage Tree)

/-- `num_buf_pages`, set with `total_size`. -/
def numBufPages : ℕ := idx.totalSize / pageRatio + 1

/-- `interleave_page_offset`. -/
def interleavePageOffset : ℕ := idx.numBufPages / mergeThreadNum

/-- The first page of thread `tid`. -/
def startPage (tid : ℕ) : ℕ := idx.interleavePageOffset * tid

/-- The end of thread `tid`'s pages. -/
def endPage (tid : ℕ) : ℕ :=
  if tid = mergeThreadNum - 1 then idx.numBufPages else idx.interleavePageOffset * (tid + 1)

/-- `key_count[tid]` after its loop. -/
def keyCount (tid : ℕ) : ℕ :=
  (List.range' (idx.startPage tid) (idx.endPage tid - idx.startPage tid)).foldl
    (fun count j => count + (idx.bufferPages j).pageCount) 0

/-- The bound variables of thread `tid`, from its entry of `key_count`. -/
def mergeBounds (tid count : ℕ) : MergeBounds :=
  let curOldOff := idx.startPage tid * pageRatio
  let last := tid = mergeThreadNum - 1
  let maxOldInputSize := if last then idx.totalSize else idx.endPage tid * pageRatio
  { maxPageId := idx.endPage tid
    maxOldInputSize := maxOldInputSize
    -- entries of both sides, also those that an update will drop
    totalOps := if last then count + maxOldInputSize - curOldOff
      else maxOldInputSize - curOldOff + count }

/-- The scan over empty pages from `page` on, at most `fuel` of them. -/
def skipEmpty : ℕ → ℕ → ℕ
  | 0, page => page
  | fuel + 1, page =>
    if (idx.bufferPages page).pageCount = 0 then skipEmpty fuel (page + 1) else page

/-- The scan over empty pages, which ends at `num_buf_pages`. -/
def nextPage (page : ℕ) : ℕ := idx.skipEmpty (idx.numBufPages - page) page

/-- Fetch a new `old_key`, with the end given. -/
def fetchOld (stop : ℕ) (old : OldCursor) : OldCursor :=
  if old.curOldOff < stop then
    { old with
      oldKey := idx.keys old.curOldOff
      oldValue := idx.payloads old.curOldOff
      curOldOff := old.curOldOff + 1 }
  else { old with oldEndFlag := true }

/-- The entry of the page at `in_page_off`, and the offset after it. -/
def loadBuf (buf : BufCursor) : BufCursor :=
  { buf with
    bufKey := (idx.bufferPages buf.pageId).keyAt buf.inPageOff
    bufValue := (idx.bufferPages buf.pageId).payloadAt buf.inPageOff
    inPageOff := buf.inPageOff + 1 }

/-- Go to the next page that is not empty, and fetch its first entry. -/
def enterPage (maxPageId : ℕ) (buf : BufCursor) : BufCursor :=
  let buf := { buf with pageId := idx.nextPage buf.pageId }
  if buf.pageId < maxPageId then idx.loadBuf buf else { buf with bufEndFlag := true }

/-- Fetch a new `buf_key`. -/
def fetchBuf (maxPageId : ℕ) (buf : BufCursor) : BufCursor :=
  if buf.inPageOff < (idx.bufferPages buf.pageId).pageCount then idx.loadBuf buf
  else idx.enterPage maxPageId { buf with pageId := buf.pageId + 1, inPageOff := 0 }

/-- The variables of thread `tid` before its loop, with its entry of `merge_offset_array`. -/
def firstLocals (tid offset : ℕ) : MergeLocals :=
  let curOldOff := idx.startPage tid * pageRatio
  { old := ⟨idx.keys curOldOff, idx.payloads curOldOff, curOldOff + 1, false⟩
    buf := idx.enterPage (idx.endPage tid) ⟨0, .ofByte 0, idx.startPage tid, 0, false⟩
    curNewOff := (curOldOff + offset) % word }

/-- One pass of the loop. -/
def mergePass (bounds : MergeBounds) (l : MergeLocals) : MergeEvent × MergeLocals :=
  let ⟨old, buf, curNewOff⟩ := l
  let next := (curNewOff + 1) % word
  match old.oldEndFlag, buf.bufEndFlag with
  | false, false =>
    if old.oldKey < buf.bufKey then
      (.write curNewOff (old.oldKey, old.oldValue),
        ⟨idx.fetchOld bounds.maxOldInputSize old, buf, next⟩)
    else
      -- an update drops the old key, and the pass still stores one entry only
      let old' := if old.oldKey = buf.bufKey then idx.fetchOld bounds.maxOldInputSize old else old
      (.write curNewOff (buf.bufKey, buf.bufValue),
        ⟨old', idx.fetchBuf bounds.maxPageId buf, next⟩)
  | false, true =>
    -- here the old side runs on to the end of the array, past the slice
    (.write curNewOff (old.oldKey, old.oldValue), ⟨idx.fetchOld idx.totalSize old, buf, next⟩)
  | true, false =>
    (.write curNewOff (buf.bufKey, buf.bufValue), ⟨old, idx.fetchBuf bounds.maxPageId buf, next⟩)
  -- `printf("error in merge")`; the pass counts and nothing moves
  | true, true => (.error, l)

/-- The loop's events and variables after `targets` passes. -/
def mergePasses (bounds : MergeBounds) (l : MergeLocals) : ℕ → List MergeEvent × MergeLocals
  | 0 => ([], l)
  | targets + 1 =>
    let (events, l') := mergePasses bounds l targets
    let (event, l'') := idx.mergePass bounds l'
    (events ++ [event], l'')

end DramIndex

end PimLex
