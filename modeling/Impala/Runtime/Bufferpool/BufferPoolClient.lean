import Mathlib
import Impala.Lib.AssocList

/-!
The page accounting of a buffer-pool client (runtime/bufferpool/buffer-pool.cc,
buffer-pool-internal.h). A client's pages are pinned, dirty and unpinned, being
written, clean (in the allocator's clean lists) or evicted (in no list). The
eviction policy asks of every client

  reservation >= buffers_allocated_bytes_ + pinned + dirty unpinned + in flight,

and CleanPages starts writes and waits for them before anything on the right grows.

A client is used by one thread at a time, so its calls run one after another.
While a call waits (in CleanPages or WaitForWrite) the lock is free and the
environment acts: a write completes, another client takes the buffer of a clean
page, the reservation grows. The model gives each call the list of such events
its waits see; a call whose waits run out of events is still waiting. The
results of the I/O calls (Write, ReadAsync, RestoreData, Allocate) are answers
the model is given.

The lists are lists of page ids; dirty_unpinned_pages_ is kept newest first, so
its tail() is the head of the list.
-/

set_option autoImplicit false

namespace Impala.BufferPool

open AssocList

abbrev PageId := Nat

structure Page where
  len : Int
  pinCount : Nat
  bufferOpen : Bool
  pinInFlight : Bool
  deriving DecidableEq, Repr

structure Client where
  reservation : Int
  usedReservation : Int
  buffersAllocatedBytes : Int
  pages : List (PageId × Page)
  pinnedPages : List PageId
  dirtyUnpinnedPages : List PageId
  inFlightWritePages : List PageId
  allocatorCleanPages : List PageId
  numPages : Int
  writeStatus : Bool
  deriving DecidableEq, Repr

/-- How a call ended: returned OK, returned an error, or still waiting. -/
inductive Outcome where
  | ok
  | error
  | waiting
  deriving DecidableEq, Repr

/-- What happens while the client lock is free. -/
inductive Event where
  /-- WriteCompleteCallback of a page's write, with the write's status. -/
  | writeComplete (id : PageId) (ok : Bool)
  /-- The allocator takes the buffer of a clean page for another client. -/
  | evictCleanPage (id : PageId)
  /-- The reservation grows (IncreaseReservation is thread-safe). -/
  | increaseReservation (bytes : Int)
  deriving DecidableEq, Repr

namespace Client

def pageLen (c : Client) (id : PageId) : Int := ((find? id c.pages).map Page.len).getD 0

def bytes (c : Client) (l : List PageId) : Int := (l.map c.pageLen).sum

def listed (c : Client) : List PageId :=
  c.pinnedPages ++ c.dirtyUnpinnedPages ++ c.inFlightWritePages ++ c.allocatorCleanPages

def hasBuffer (c : Client) (id : PageId) : Bool := ((find? id c.pages).map Page.bufferOpen).getD false

def pinInFlight (c : Client) (id : PageId) : Bool :=
  ((find? id c.pages).map Page.pinInFlight).getD false

def updatePage (c : Client) (id : PageId) (f : Page → Page) : Client :=
  { c with pages := modify id f c.pages }

end Client

/-- The configuration WriteDirtyPagesAsync reads, and whether file_group_->Write
starts a write. -/
structure Config where
  spillingEnabled : Bool
  targetWrites : Nat
  writeStarts : Client → PageId → Bool

namespace Client

variable (cfg : Config)

def writeLoop (minBytesToWrite : Int) : Int → Client → List PageId → Client
  | _, c, [] => c
  | bytesWritten, c, id :: rest =>
    if bytesWritten < minBytesToWrite ∨ c.inFlightWritePages.length < cfg.targetWrites then
      if cfg.writeStarts c id then
        writeLoop minBytesToWrite (bytesWritten + c.pageLen id)
          { c with dirtyUnpinnedPages := rest, inFlightWritePages := c.inFlightWritePages ++ [id] }
          rest
      else { c with writeStatus := false }
    else c

def writeDirtyPagesAsync (c : Client) (minBytesToWrite : Int) : Client :=
  if !cfg.spillingEnabled then c
  else if !c.writeStatus then c
  else writeLoop cfg minBytesToWrite 0 c c.dirtyUnpinnedPages

/-- WriteCompleteCallback: the page goes to the clean list even after an error,
and another write may start. -/
def writeCompleteCallback (c : Client) (id : PageId) (ok : Bool) : Client :=
  if id ∈ c.inFlightWritePages then
    writeDirtyPagesAsync cfg
      { c with
        writeStatus := c.writeStatus && ok
        inFlightWritePages := c.inFlightWritePages.erase id
        allocatorCleanPages := c.allocatorCleanPages ++ [id] } 0
  else c

def evictCleanPage (c : Client) (id : PageId) : Client :=
  if id ∈ c.allocatorCleanPages then
    { c.updatePage id fun p => { p with bufferOpen := false } with
      allocatorCleanPages := c.allocatorCleanPages.erase id }
  else c

def applyEvent (c : Client) : Event → Client
  | .writeComplete id ok => c.writeCompleteCallback cfg id ok
  | .evictCleanPage id => c.evictCleanPage id
  | .increaseReservation bytes =>
    if 0 ≤ bytes then { c with reservation := c.reservation + bytes } else c

/-- The wait loop of CleanPages: each wake-up follows an event, after which
write_status_ is checked. -/
def cleanWait (targetDirtyBytes : Int) : Client → List Event → Outcome × Client
  | c, events =>
    if c.bytes c.dirtyUnpinnedPages + c.bytes c.inFlightWritePages ≤ targetDirtyBytes then (.ok, c)
    else match events with
      | [] => (.waiting, c)
      | e :: es =>
        if (c.applyEvent cfg e).writeStatus then cleanWait targetDirtyBytes (c.applyEvent cfg e) es
        else (.error, c.applyEvent cfg e)

def cleanPages (c : Client) (len : Int) (lazyFlush : Bool) (events : List Event) :
    Outcome × Client :=
  let targetDirtyBytes := c.reservation - c.buffersAllocatedBytes - c.bytes c.pinnedPages - len
  let minBytesToWrite := max 0 (c.bytes c.dirtyUnpinnedPages - targetDirtyBytes)
  if lazyFlush && decide (c.bytes c.dirtyUnpinnedPages + c.bytes c.inFlightWritePages ≤
      targetDirtyBytes) then (.ok, c)
  else
    let c := c.writeDirtyPagesAsync cfg minBytesToWrite
    if !c.writeStatus then (.error, c) else c.cleanWait cfg targetDirtyBytes events

/-- WaitForWrite: the client once the page's write has completed, with the
events left, or still waiting (none) when the events run out. -/
def waitForWrite (id : PageId) : Client → List Event → Client × Option (List Event)
  | c, events =>
    if id ∈ c.inFlightWritePages then
      match events with
      | [] => (c, none)
      | e :: es => waitForWrite id (c.applyEvent cfg e) es
    else (c, some events)

/-- The allocator's RemoveCleanPage: whether the page was clean, and the client
after; without claim_buffer the buffer goes back to the allocator. -/
def removeCleanPage (c : Client) (claimBuffer : Bool) (id : PageId) : Bool × Client :=
  if c.hasBuffer id && decide (id ∈ c.allocatorCleanPages) then
    (true,
      { (if claimBuffer then c else c.updatePage id fun p => { p with bufferOpen := false }) with
        allocatorCleanPages := c.allocatorCleanPages.erase id })
  else (false, c)

def createPinnedPage (c : Client) (id : PageId) (len : Int) : Client :=
  { c with
    pages := (id, { len := len, pinCount := 1, bufferOpen := true, pinInFlight := false }) :: c.pages
    buffersAllocatedBytes := c.buffersAllocatedBytes - len
    pinnedPages := c.pinnedPages ++ [id]
    numPages := c.numPages + 1 }

def dropPage (c : Client) (id : PageId) (outBuffer : Bool) : Client :=
  { c with
    numPages := c.numPages - 1
    pages := erase id c.pages
    buffersAllocatedBytes :=
      if outBuffer then c.buffersAllocatedBytes + c.pageLen id else c.buffersAllocatedBytes }

def destroyPageInternal (c : Client) (id : PageId) (outBuffer : Bool) (events : List Event) :
    Outcome × Client :=
  if id ∈ c.pinnedPages then
    (.ok, { c with pinnedPages := c.pinnedPages.erase id }.dropPage id outBuffer)
  else if id ∈ c.dirtyUnpinnedPages then
    (.ok, { c with dirtyUnpinnedPages := c.dirtyUnpinnedPages.erase id }.dropPage id outBuffer)
  else
    match c.waitForWrite cfg id events with
    | (c, none) => (.waiting, c)
    | (c, some _) => (.ok, (c.removeCleanPage outBuffer id).2.dropPage id outBuffer)

def moveToDirtyUnpinned (c : Client) (id : PageId) : Client :=
  { c with
    pinnedPages := c.pinnedPages.erase id
    dirtyUnpinnedPages := id :: c.dirtyUnpinnedPages }.writeDirtyPagesAsync cfg 0

def startMoveEvictedToPinned (c : Client) (id : PageId) (allocateOk readOk : Bool) :
    Outcome × Client :=
  if !allocateOk then (.error, c)
  else
    let c := c.updatePage id fun p => { p with bufferOpen := true }
    if !readOk then (.error, c)
    else
      (.ok, { c.updatePage id fun p => { p with pinInFlight := true } with
        pinnedPages := c.pinnedPages ++ [id] })

def startMoveToPinned (c : Client) (id : PageId) (events : List Event)
    (restoreOk allocateOk readOk : Bool) : Outcome × Client :=
  if !c.writeStatus then (.error, c)
  else if id ∈ c.dirtyUnpinnedPages then
    (.ok, { c with
      dirtyUnpinnedPages := c.dirtyUnpinnedPages.erase id
      pinnedPages := c.pinnedPages ++ [id] })
  else
    let waited := if id ∈ c.inFlightWritePages then c.waitForWrite cfg id events
      else (c, some events)
    match waited with
    | (c, none) => (.waiting, c)
    | (c, some events) =>
      if !c.writeStatus then (.error, c)
      else
        match c.cleanPages cfg (c.pageLen id) false events with
        | (.ok, c) =>
          match c.removeCleanPage true id with
          | (true, c) =>
            (if restoreOk then .ok else .error, { c with pinnedPages := c.pinnedPages ++ [id] })
          | (false, c) => c.startMoveEvictedToPinned id allocateOk readOk
        | r => r

def undoMoveEvictedToPinned (c : Client) (id : PageId) : Client :=
  { c.updatePage id fun p => { p with pinInFlight := false, bufferOpen := false } with
    pinnedPages := c.pinnedPages.erase id }

def finishMoveEvictedToPinned (c : Client) (id : PageId) (readOk : Bool) : Outcome × Client :=
  if !c.pinInFlight id then (.ok, c)
  else if !readOk then (.error, c)
  else (.ok, c.updatePage id fun p => { p with pinInFlight := false })

/-- PrepareToAllocateBuffer: the outcome, the client, and *success. Without a
reservation, whether IncreaseReservationToFitAndAllocate may raise the
reservation is given. -/
def prepareToAllocateBuffer (c : Client) (len : Int) (reserved granted : Bool)
    (events : List Event) : Outcome × Client × Bool :=
  let increase := max 0 (len - (c.reservation - c.usedReservation))
  if !reserved && (decide (0 < increase) && !granted) then (.ok, c, false)
  else
    let c := if reserved then { c with usedReservation := c.usedReservation + len }
      else { c with
        reservation := c.reservation + increase
        usedReservation := c.usedReservation + len }
    match c.cleanPages cfg len false events with
    | (.ok, c) => (.ok, { c with buffersAllocatedBytes := c.buffersAllocatedBytes + len }, true)
    | (.error, c) => (.error, { c with usedReservation := c.usedReservation - len }, false)
    | (.waiting, c) => (.waiting, c, false)

def decreaseReservationTo (c : Client) (maxDecrease targetBytes : Int) (events : List Event) :
    Outcome × Client :=
  let amountToFree := min maxDecrease (c.reservation - targetBytes)
  if amountToFree = 0 then (.ok, c)
  else
    match c.cleanPages cfg amountToFree false events with
    | (.ok, c) => (.ok, { c with reservation := c.reservation - amountToFree })
    | r => r

def transferReservationTo (c : Client) (bytes : Int) (accepted : Bool) (events : List Event) :
    Outcome × Client :=
  match c.cleanPages cfg bytes true events with
  | (.ok, c) => (.ok, if accepted then { c with reservation := c.reservation - bytes } else c)
  | r => r

/-- BufferPool::Pin: the first pin moves the page to pinned; every pin uses the
page's length of reservation. -/
def pin (c : Client) (id : PageId) (events : List Event) (restoreOk allocateOk readOk : Bool) :
    Outcome × Client :=
  match find? id c.pages with
  | none => (.ok, c)
  | some page =>
    match (if page.pinCount = 0 then c.startMoveToPinned cfg id events restoreOk allocateOk readOk
        else (.ok, c)) with
    | (.ok, c) =>
      (.ok, { c.updatePage id fun p => { p with pinCount := p.pinCount + 1 } with
        usedReservation := c.usedReservation + page.len })
    | r => r

def unpin (c : Client) (id : PageId) : Client :=
  match find? id c.pages with
  | none => c
  | some page =>
    let c := { c.updatePage id fun p => { p with pinCount := p.pinCount - 1 } with
      usedReservation := c.usedReservation - page.len }
    if page.pinCount - 1 > 0 then c
    else if page.pinInFlight then c.undoMoveEvictedToPinned id
    else c.moveToDirtyUnpinned cfg id

end Client

namespace Client

section Accessors

variable (c : Client)

@[simp] theorem bytes_nil : c.bytes [] = 0 := rfl

@[simp] theorem bytes_cons (id : PageId) (l : List PageId) :
    c.bytes (id :: l) = c.pageLen id + c.bytes l := by
  simp [bytes]

@[simp] theorem bytes_append (l l' : List PageId) : c.bytes (l ++ l') = c.bytes l + c.bytes l' := by
  simp [bytes]

theorem bytes_perm {l l' : List PageId} (h : l.Perm l') : c.bytes l = c.bytes l' :=
  (h.map _).sum_eq

theorem bytes_erase {id : PageId} {l : List PageId} (h : id ∈ l) :
    c.bytes l = c.pageLen id + c.bytes (l.erase id) := by
  rw [c.bytes_perm (List.perm_cons_erase h), bytes_cons]

theorem bytes_congr {c' : Client} (h : c'.pageLen = c.pageLen) : c'.bytes = c.bytes := by
  funext l
  simp only [bytes, h]

theorem pageLen_updatePage (id : PageId) (f : Page → Page) (hf : ∀ p, (f p).len = p.len) :
    (c.updatePage id f).pageLen = c.pageLen := by
  funext id'
  simp only [pageLen, updatePage, find?_modify]
  split_ifs
  · cases find? id' c.pages <;> simp [hf]
  · rfl

theorem hasBuffer_of_pages {c' : Client} (h : c'.pages = c.pages) : c'.hasBuffer = c.hasBuffer := by
  funext id
  simp only [hasBuffer, h]

theorem pageLen_of_pages {c' : Client} (h : c'.pages = c.pages) : c'.pageLen = c.pageLen := by
  funext id
  simp only [pageLen, h]

theorem pinInFlight_of_pages {c' : Client} (h : c'.pages = c.pages) :
    c'.pinInFlight = c.pinInFlight := by
  funext id
  simp only [pinInFlight, h]

theorem hasBuffer_updatePage_of {id : PageId} {f : Page → Page}
    (hf : ∀ p, (f p).bufferOpen = p.bufferOpen) : (c.updatePage id f).hasBuffer = c.hasBuffer := by
  funext id'
  simp only [hasBuffer, updatePage, find?_modify]
  split_ifs
  · cases find? id' c.pages <;> simp [hf]
  · rfl

theorem hasBuffer_updatePage_ne {id id' : PageId} (f : Page → Page) (h : id ≠ id') :
    (c.updatePage id f).hasBuffer id' = c.hasBuffer id' := by
  simp [hasBuffer, updatePage, find?_modify, h]

theorem hasBuffer_updatePage_self {id : PageId} {f : Page → Page} {b : Bool}
    (hf : ∀ p, (f p).bufferOpen = b) (hk : id ∈ keys c.pages) :
    (c.updatePage id f).hasBuffer id = b := by
  obtain ⟨p, hp⟩ := find?_of_mem_keys hk
  simp [hasBuffer, updatePage, find?_modify, hp, hf]

theorem pinInFlight_updatePage {id : PageId} (f : Page → Page)
    (hf : ∀ p, (f p).pinInFlight = p.pinInFlight) :
    (c.updatePage id f).pinInFlight = c.pinInFlight := by
  funext id'
  simp only [pinInFlight, updatePage, find?_modify]
  split_ifs
  · cases find? id' c.pages <;> simp [hf]
  · rfl

@[simp] theorem keys_updatePage (id : PageId) (f : Page → Page) :
    keys (c.updatePage id f).pages = keys c.pages :=
  keys_modify _ _ _

theorem len_updatePage {id : PageId} {f : Page → Page} (hf : ∀ p, (f p).len = p.len)
    (h : ∀ e ∈ c.pages, 0 ≤ e.2.len) : ∀ e ∈ (c.updatePage id f).pages, 0 ≤ e.2.len := by
  intro e he
  obtain ⟨e', he', rfl⟩ := List.mem_map.mp he
  by_cases hk : e'.1 = id
  · simp only [hk, ↓reduceIte, hf]
    exact h e' he'
  · simp only [hk, ↓reduceIte]
    exact h e' he'

end Accessors

end Client

open Client

/-- The eviction policy and the shape of the lists: every page in at most one
list, every listed page live and holding its buffer, num_pages_ the number of
live pages. -/
structure Inv (c : Client) : Prop where
  evict : c.buffersAllocatedBytes + c.bytes c.pinnedPages + c.bytes c.dirtyUnpinnedPages +
    c.bytes c.inFlightWritePages ≤ c.reservation
  buffers_nonneg : 0 ≤ c.buffersAllocatedBytes
  listed_nodup : c.listed.Nodup
  listed_live : ∀ id ∈ c.listed, id ∈ keys c.pages
  listed_open : ∀ id ∈ c.listed, c.hasBuffer id = true
  pages_nodup : (keys c.pages).Nodup
  numPages_eq : c.numPages = (keys c.pages).length
  len_nonneg : ∀ e ∈ c.pages, 0 ≤ e.2.len

theorem Inv.pageLen_nonneg {c : Client} (hc : Inv c) (id : PageId) : 0 ≤ c.pageLen id := by
  unfold Client.pageLen
  cases hf : find? id c.pages with
  | none => simp
  | some p => simpa using hc.len_nonneg _ (mem_of_find? hf)

/-- What may change while a call waits: writes start and complete, clean pages
lose their buffers, the reservation grows. Nothing enters the pinned list and
no page enters the dirty list. -/
structure Frame (c c' : Client) : Prop where
  reservation_le : c.reservation ≤ c'.reservation
  usedReservation : c'.usedReservation = c.usedReservation
  buffers : c'.buffersAllocatedBytes = c.buffersAllocatedBytes
  pinned : c'.pinnedPages = c.pinnedPages
  keys : keys c'.pages = keys c.pages
  pageLen : c'.pageLen = c.pageLen
  pinInFlight : c'.pinInFlight = c.pinInFlight
  numPages : c'.numPages = c.numPages
  writeStatus : c'.writeStatus = true → c.writeStatus = true
  dirty_sub : ∀ id ∈ c'.dirtyUnpinnedPages, id ∈ c.dirtyUnpinnedPages
  inFlight_sub : ∀ id ∈ c'.inFlightWritePages,
    id ∈ c.dirtyUnpinnedPages ∨ id ∈ c.inFlightWritePages
  listed_sub : ∀ id ∈ c'.listed, id ∈ c.listed
  hasBuffer : ∀ id, c'.hasBuffer id = true → c.hasBuffer id = true
  dirty_bytes : c'.bytes c'.dirtyUnpinnedPages + c'.bytes c'.inFlightWritePages ≤
    c.bytes c.dirtyUnpinnedPages + c.bytes c.inFlightWritePages

theorem Frame.refl (c : Client) : Frame c c :=
  ⟨le_refl _, rfl, rfl, rfl, rfl, rfl, rfl, rfl, id, fun _ h => h, fun _ h => .inr h,
    fun _ h => h, fun _ h => h, le_refl _⟩

theorem Frame.trans {c₁ c₂ c₃ : Client} (h₁ : Frame c₁ c₂) (h₂ : Frame c₂ c₃) : Frame c₁ c₃ where
  reservation_le := le_trans h₁.reservation_le h₂.reservation_le
  usedReservation := h₂.usedReservation.trans h₁.usedReservation
  buffers := h₂.buffers.trans h₁.buffers
  pinned := h₂.pinned.trans h₁.pinned
  keys := h₂.keys.trans h₁.keys
  pageLen := h₂.pageLen.trans h₁.pageLen
  pinInFlight := h₂.pinInFlight.trans h₁.pinInFlight
  numPages := h₂.numPages.trans h₁.numPages
  writeStatus := h₁.writeStatus ∘ h₂.writeStatus
  dirty_sub id h := h₁.dirty_sub id (h₂.dirty_sub id h)
  inFlight_sub id h := (h₂.inFlight_sub id h).elim (fun h => .inl (h₁.dirty_sub id h))
    (h₁.inFlight_sub id)
  listed_sub id h := h₁.listed_sub id (h₂.listed_sub id h)
  hasBuffer id h := h₁.hasBuffer id (h₂.hasBuffer id h)
  dirty_bytes := le_trans h₂.dirty_bytes h₁.dirty_bytes

theorem Inv.of_perm {c c' : Client} (hc : Inv c) (hperm : c.listed.Perm c'.listed)
    (hpages : c'.pages = c.pages) (hnum : c'.numPages = c.numPages)
    (hbuf : c'.buffersAllocatedBytes = c.buffersAllocatedBytes)
    (hevict : c'.buffersAllocatedBytes + c'.bytes c'.pinnedPages + c'.bytes c'.dirtyUnpinnedPages +
      c'.bytes c'.inFlightWritePages ≤ c'.reservation) : Inv c' where
  evict := hevict
  buffers_nonneg := hbuf ▸ hc.buffers_nonneg
  listed_nodup := hperm.nodup_iff.mp hc.listed_nodup
  listed_live id h := hpages ▸ hc.listed_live id (hperm.mem_iff.mpr h)
  listed_open id h := by
    have := hc.listed_open id (hperm.mem_iff.mpr h)
    simpa [Client.hasBuffer, hpages] using this
  pages_nodup := hpages ▸ hc.pages_nodup
  numPages_eq := by rw [hnum, hpages]; exact hc.numPages_eq
  len_nonneg := hpages ▸ hc.len_nonneg

section Moves

variable {c : Client} {id : PageId}

theorem count_erase_add {l : List PageId} (h : id ∈ l) (a : PageId) :
    (l.erase id).count a + (if id == a then 1 else 0) = l.count a := by
  rw [List.count_erase]
  have hc := List.count_pos_iff.mpr h
  by_cases hia : id = a
  · subst hia
    simp only [beq_self_eq_true, ↓reduceIte]
    omega
  · simp [hia]

theorem listed_perm_startWrite {rest : List PageId} (hd : c.dirtyUnpinnedPages = id :: rest) :
    c.listed.Perm
      { c with dirtyUnpinnedPages := rest,
               inFlightWritePages := c.inFlightWritePages ++ [id] }.listed := by
  rw [List.perm_iff_count]
  intro a
  simp only [Client.listed, hd, List.count_append, List.count_cons, List.count_nil]
  omega

theorem listed_perm_writeComplete (h : id ∈ c.inFlightWritePages) :
    c.listed.Perm
      { c with inFlightWritePages := c.inFlightWritePages.erase id,
               allocatorCleanPages := c.allocatorCleanPages ++ [id] }.listed := by
  rw [List.perm_iff_count]
  intro a
  have hcount := count_erase_add h a
  simp only [Client.listed, List.count_append, List.count_cons, List.count_nil] at hcount ⊢
  omega

theorem listed_perm_pinDirty (h : id ∈ c.dirtyUnpinnedPages) :
    c.listed.Perm
      { c with dirtyUnpinnedPages := c.dirtyUnpinnedPages.erase id,
               pinnedPages := c.pinnedPages ++ [id] }.listed := by
  rw [List.perm_iff_count]
  intro a
  have hcount := count_erase_add h a
  simp only [Client.listed, List.count_append, List.count_cons, List.count_nil] at hcount ⊢
  omega

theorem listed_perm_pinClean (h : id ∈ c.allocatorCleanPages) :
    c.listed.Perm
      { c with allocatorCleanPages := c.allocatorCleanPages.erase id,
               pinnedPages := c.pinnedPages ++ [id] }.listed := by
  rw [List.perm_iff_count]
  intro a
  have hcount := count_erase_add h a
  simp only [Client.listed, List.count_append, List.count_cons, List.count_nil] at hcount ⊢
  omega

theorem listed_perm_unpin (h : id ∈ c.pinnedPages) :
    c.listed.Perm
      { c with pinnedPages := c.pinnedPages.erase id,
               dirtyUnpinnedPages := id :: c.dirtyUnpinnedPages }.listed := by
  rw [List.perm_iff_count]
  intro a
  have hcount := count_erase_add h a
  simp only [Client.listed, List.count_append, List.count_cons] at hcount ⊢
  omega

end Moves

theorem Inv.writeStatus_false {c : Client} (hc : Inv c) : Inv { c with writeStatus := false } :=
  ⟨hc.evict, hc.buffers_nonneg, hc.listed_nodup, hc.listed_live, hc.listed_open, hc.pages_nodup,
    hc.numPages_eq, hc.len_nonneg⟩

theorem Frame.writeStatus_false (c : Client) : Frame c { c with writeStatus := false } :=
  { Frame.refl c with writeStatus := fun h => absurd h Bool.false_ne_true }

section Writes

variable (cfg : Config)

theorem startWrite_spec {c : Client} {id : PageId} {rest : List PageId}
    (hd : c.dirtyUnpinnedPages = id :: rest) (hc : Inv c) :
    Inv { c with dirtyUnpinnedPages := rest,
                 inFlightWritePages := c.inFlightWritePages ++ [id] } ∧
      Frame c { c with dirtyUnpinnedPages := rest,
                       inFlightWritePages := c.inFlightWritePages ++ [id] } := by
  have hperm := listed_perm_startWrite hd
  have hevict := hc.evict
  rw [hd, bytes_cons] at hevict
  have hbytes : c.bytes (c.inFlightWritePages ++ [id]) = c.bytes c.inFlightWritePages + c.pageLen id := by
    simp
  refine ⟨hc.of_perm hperm rfl rfl rfl ?_, ?_⟩
  · show c.buffersAllocatedBytes + c.bytes c.pinnedPages + c.bytes rest +
      c.bytes (c.inFlightWritePages ++ [id]) ≤ c.reservation
    omega
  · refine { Frame.refl c with
      dirty_sub := fun x hx => ?_
      inFlight_sub := fun x hx => ?_
      listed_sub := fun x hx => hperm.mem_iff.mpr hx
      dirty_bytes := ?_ }
    · rw [hd]
      exact List.mem_cons_of_mem _ hx
    · rcases List.mem_append.mp hx with hx | hx
      · exact .inr hx
      · rw [List.mem_singleton] at hx
        subst hx
        rw [hd]
        exact .inl List.mem_cons_self
    · show c.bytes rest + c.bytes (c.inFlightWritePages ++ [id]) ≤
        c.bytes c.dirtyUnpinnedPages + c.bytes c.inFlightWritePages
      rw [hd, bytes_cons, hbytes]
      omega

theorem writeLoop_spec (m : Int) : ∀ (ids : List PageId) (b : Int) (c : Client),
    c.dirtyUnpinnedPages = ids → Inv c →
      Inv (c.writeLoop cfg m b ids) ∧ Frame c (c.writeLoop cfg m b ids)
  | [], _, c, _, hc => ⟨hc, Frame.refl c⟩
  | id :: rest, b, c, hd, hc => by
    simp only [Client.writeLoop]
    split_ifs with hcond hstart
    · obtain ⟨hc', hf⟩ := startWrite_spec hd hc
      obtain ⟨hc'', hf'⟩ := writeLoop_spec m rest _ _ rfl hc'
      exact ⟨hc'', hf.trans hf'⟩
    · exact ⟨hc.writeStatus_false, Frame.writeStatus_false c⟩
    · exact ⟨hc, Frame.refl c⟩

theorem writeDirtyPagesAsync_spec {c : Client} (hc : Inv c) (m : Int) :
    Inv (c.writeDirtyPagesAsync cfg m) ∧ Frame c (c.writeDirtyPagesAsync cfg m) := by
  unfold Client.writeDirtyPagesAsync
  split_ifs
  · exact ⟨hc, Frame.refl c⟩
  · exact ⟨hc, Frame.refl c⟩
  · exact writeLoop_spec cfg m _ 0 c rfl hc

theorem writeCompleteCallback_spec {c : Client} (hc : Inv c) (id : PageId) (ok : Bool) :
    Inv (c.writeCompleteCallback cfg id ok) ∧ Frame c (c.writeCompleteCallback cfg id ok) := by
  unfold Client.writeCompleteCallback
  split_ifs with hin
  · set c₁ : Client := { c with
      writeStatus := c.writeStatus && ok
      inFlightWritePages := c.inFlightWritePages.erase id
      allocatorCleanPages := c.allocatorCleanPages ++ [id] }
    have hperm : c.listed.Perm c₁.listed := listed_perm_writeComplete hin
    have hbytes := c.bytes_erase hin
    have hlen := hc.pageLen_nonneg id
    have hevict := hc.evict
    have hc₁ : Inv c₁ := hc.of_perm hperm rfl rfl rfl (by
      show c.buffersAllocatedBytes + c.bytes c.pinnedPages + c.bytes c.dirtyUnpinnedPages +
        c.bytes (c.inFlightWritePages.erase id) ≤ c.reservation
      omega)
    have hf₁ : Frame c c₁ := { Frame.refl c with
      writeStatus := fun h => (Bool.and_eq_true_iff.mp h).1
      inFlight_sub := fun x hx => .inr (List.mem_of_mem_erase hx)
      listed_sub := fun x hx => hperm.mem_iff.mpr hx
      dirty_bytes := by
        show c.bytes c.dirtyUnpinnedPages + c.bytes (c.inFlightWritePages.erase id) ≤
          c.bytes c.dirtyUnpinnedPages + c.bytes c.inFlightWritePages
        omega }
    obtain ⟨hc₂, hf₂⟩ := writeDirtyPagesAsync_spec cfg hc₁ 0
    exact ⟨hc₂, hf₁.trans hf₂⟩
  · exact ⟨hc, Frame.refl c⟩

theorem evictCleanPage_spec {c : Client} (hc : Inv c) (id : PageId) :
    Inv (c.evictCleanPage id) ∧ Frame c (c.evictCleanPage id) := by
  unfold Client.evictCleanPage
  split_ifs with hin
  · set c₁ : Client := { c.updatePage id fun p => { p with bufferOpen := false } with
      allocatorCleanPages := c.allocatorCleanPages.erase id }
    have hsub : c₁.listed.Sublist c.listed := by
      simp only [c₁, Client.listed, Client.updatePage]
      exact (List.erase_sublist).append_left _
    have hgone : id ∉ c₁.listed := by
      have hnd := hc.listed_nodup
      simp only [Client.listed, List.nodup_append, List.mem_append] at hnd
      simp only [c₁, Client.listed, Client.updatePage, List.mem_append, not_or]
      refine ⟨⟨⟨fun h => ?_, fun h => ?_⟩, fun h => ?_⟩, ?_⟩
      · exact hnd.2.2 id (.inl (.inl h)) id hin rfl
      · exact hnd.2.2 id (.inl (.inr h)) id hin rfl
      · exact hnd.2.2 id (.inr h) id hin rfl
      · exact hnd.2.1.not_mem_erase
    have hpages : c₁.pages = (c.updatePage id fun p => { p with bufferOpen := false }).pages := rfl
    have hlenEq : c₁.pageLen = c.pageLen := (pageLen_of_pages _ hpages).trans
      (c.pageLen_updatePage id (fun p => { p with bufferOpen := false }) (fun _ => rfl))
    have hbuf : ∀ x, id ≠ x → c₁.hasBuffer x = c.hasBuffer x := by
      intro x hne
      rw [hasBuffer_of_pages _ hpages]
      exact c.hasBuffer_updatePage_ne _ hne
    refine ⟨⟨?_, hc.buffers_nonneg, hsub.nodup hc.listed_nodup,
      fun x hx => by simpa [c₁] using hc.listed_live x (hsub.subset hx),
      fun x hx => (hbuf x fun h => hgone (h ▸ hx)).trans (hc.listed_open x (hsub.subset hx)),
      by simpa [c₁] using hc.pages_nodup, by simpa [c₁, Client.updatePage] using hc.numPages_eq,
      c.len_updatePage (f := fun p => { p with bufferOpen := false }) (fun _ => rfl) hc.len_nonneg⟩,
      ?_⟩
    · rw [c.bytes_congr hlenEq]
      exact hc.evict
    · refine { Frame.refl c with
        keys := by simp [c₁]
        pageLen := hlenEq
        pinInFlight := (pinInFlight_of_pages _ hpages).trans
          (c.pinInFlight_updatePage _ fun _ => rfl)
        listed_sub := fun x hx => hsub.subset hx
        hasBuffer := fun x hx => ?_
        dirty_bytes := by
          rw [c.bytes_congr hlenEq]
          exact le_refl _ }
      by_cases hx' : id = x
      · subst hx'
        have : c₁.hasBuffer id = false := by
          rw [hasBuffer_of_pages _ hpages]
          exact c.hasBuffer_updatePage_self (fun _ => rfl)
            (hc.listed_live id (by simp [Client.listed, hin]))
        rw [this] at hx
        exact absurd hx Bool.false_ne_true
      · rwa [hbuf x hx'] at hx
  · exact ⟨hc, Frame.refl c⟩

theorem applyEvent_spec {c : Client} (hc : Inv c) (e : Event) :
    Inv (c.applyEvent cfg e) ∧ Frame c (c.applyEvent cfg e) := by
  cases e with
  | writeComplete id ok => exact writeCompleteCallback_spec cfg hc id ok
  | evictCleanPage id => exact evictCleanPage_spec hc id
  | increaseReservation bytes =>
    simp only [Client.applyEvent]
    split_ifs with hb
    · refine ⟨{ hc with evict := ?_ }, { Frame.refl c with reservation_le := ?_ }⟩
      · have := hc.evict
        show c.buffersAllocatedBytes + c.bytes c.pinnedPages + c.bytes c.dirtyUnpinnedPages +
          c.bytes c.inFlightWritePages ≤ c.reservation + bytes
        omega
      · show c.reservation ≤ c.reservation + bytes
        omega
    · exact ⟨hc, Frame.refl c⟩

end Writes

def Room (c : Client) (len : Int) : Prop :=
  c.buffersAllocatedBytes + c.bytes c.pinnedPages + c.bytes c.dirtyUnpinnedPages +
    c.bytes c.inFlightWritePages + len ≤ c.reservation

section Waits

variable (cfg : Config)

theorem cleanWait_spec (t : Int) : ∀ (es : List Event) (c : Client), Inv c →
    Inv (c.cleanWait cfg t es).2 ∧ Frame c (c.cleanWait cfg t es).2 ∧
      ((c.cleanWait cfg t es).1 = .ok →
        (c.cleanWait cfg t es).2.bytes (c.cleanWait cfg t es).2.dirtyUnpinnedPages +
          (c.cleanWait cfg t es).2.bytes (c.cleanWait cfg t es).2.inFlightWritePages ≤ t)
  | es, c, hc => by
    unfold Client.cleanWait
    split_ifs with hle
    · exact ⟨hc, Frame.refl c, fun _ => hle⟩
    · cases es with
      | nil => exact ⟨hc, Frame.refl c, fun h => by cases h⟩
      | cons e es =>
        obtain ⟨hc₁, hf₁⟩ := applyEvent_spec cfg hc e
        dsimp only
        split_ifs with hws
        · obtain ⟨hc₂, hf₂, hok⟩ := cleanWait_spec t es _ hc₁
          exact ⟨hc₂, hf₁.trans hf₂, hok⟩
        · exact ⟨hc₁, hf₁, fun h => by cases h⟩

theorem cleanPages_spec {c : Client} (hc : Inv c) (len : Int) (lazyFlush : Bool)
    (es : List Event) :
    Inv (c.cleanPages cfg len lazyFlush es).2 ∧ Frame c (c.cleanPages cfg len lazyFlush es).2 ∧
      ((c.cleanPages cfg len lazyFlush es).1 = .ok → Room (c.cleanPages cfg len lazyFlush es).2 len) := by
  unfold Client.cleanPages
  dsimp only
  split_ifs with hlazy hws
  · refine ⟨hc, Frame.refl c, fun _ => ?_⟩
    simp only [Bool.and_eq_true, decide_eq_true_eq] at hlazy
    unfold Room
    dsimp only
    omega
  · obtain ⟨hc₁, hf₁⟩ := writeDirtyPagesAsync_spec cfg hc
      (max 0 (c.bytes c.dirtyUnpinnedPages -
        (c.reservation - c.buffersAllocatedBytes - c.bytes c.pinnedPages - len)))
    exact ⟨hc₁, hf₁, fun h => by cases h⟩
  · set m := max 0 (c.bytes c.dirtyUnpinnedPages -
      (c.reservation - c.buffersAllocatedBytes - c.bytes c.pinnedPages - len))
    obtain ⟨hc₁, hf₁⟩ := writeDirtyPagesAsync_spec cfg hc m
    obtain ⟨hc₂, hf₂, hok⟩ := cleanWait_spec cfg
      (c.reservation - c.buffersAllocatedBytes - c.bytes c.pinnedPages - len) es _ hc₁
    have hf := hf₁.trans hf₂
    refine ⟨hc₂, hf, fun h => ?_⟩
    have hP := hf.pinned
    have hB := hf.buffers
    have hR := hf.reservation_le
    have hbytes := c.bytes_congr hf.pageLen
    have hdone := hok h
    unfold Room
    rw [hP, hB, hbytes] at *
    omega

theorem waitForWrite_spec (id : PageId) : ∀ (es : List Event) (c : Client), Inv c →
    Inv (c.waitForWrite cfg id es).1 ∧ Frame c (c.waitForWrite cfg id es).1 ∧
      ((c.waitForWrite cfg id es).2.isSome → id ∉ (c.waitForWrite cfg id es).1.inFlightWritePages)
  | es, c, hc => by
    unfold Client.waitForWrite
    split_ifs with hin
    · cases es with
      | nil => exact ⟨hc, Frame.refl c, fun h => by cases h⟩
      | cons e es =>
        obtain ⟨hc₁, hf₁⟩ := applyEvent_spec cfg hc e
        obtain ⟨hc₂, hf₂, hdone⟩ := waitForWrite_spec id es _ hc₁
        exact ⟨hc₂, hf₁.trans hf₂, hdone⟩
    · exact ⟨hc, Frame.refl c, fun _ => hin⟩

end Waits

section Updates

variable {c : Client}

theorem Inv.setUsedReservation (hc : Inv c) (u : Int) : Inv { c with usedReservation := u } :=
  ⟨hc.evict, hc.buffers_nonneg, hc.listed_nodup, hc.listed_live, hc.listed_open, hc.pages_nodup,
    hc.numPages_eq, hc.len_nonneg⟩

theorem Inv.addReservation (hc : Inv c) {d : Int} (hd : 0 ≤ d) :
    Inv { c with reservation := c.reservation + d } :=
  { hc with
    evict := by
      have := hc.evict
      show c.buffersAllocatedBytes + c.bytes c.pinnedPages + c.bytes c.dirtyUnpinnedPages +
        c.bytes c.inFlightWritePages ≤ c.reservation + d
      omega }

theorem Inv.addBuffers (hc : Inv c) {len : Int} (hroom : Room c len) (hlen : 0 ≤ len) :
    Inv { c with buffersAllocatedBytes := c.buffersAllocatedBytes + len } :=
  { hc with
    evict := by
      unfold Room at hroom
      show c.buffersAllocatedBytes + len + c.bytes c.pinnedPages + c.bytes c.dirtyUnpinnedPages +
        c.bytes c.inFlightWritePages ≤ c.reservation
      omega
    buffers_nonneg := by
      have := hc.buffers_nonneg
      show 0 ≤ c.buffersAllocatedBytes + len
      omega }

theorem Inv.subReservation (hc : Inv c) {len : Int} (hroom : Room c len) :
    Inv { c with reservation := c.reservation - len } :=
  { hc with
    evict := by
      unfold Room at hroom
      show c.buffersAllocatedBytes + c.bytes c.pinnedPages + c.bytes c.dirtyUnpinnedPages +
        c.bytes c.inFlightWritePages ≤ c.reservation - len
      omega }

theorem Inv.updatePage (hc : Inv c) {id : PageId} {f : Page → Page} (hlen : ∀ p, (f p).len = p.len)
    (hbuf : id ∈ c.listed → ∀ p, (f p).bufferOpen = p.bufferOpen) : Inv (c.updatePage id f) := by
  have hlenEq := c.pageLen_updatePage id f hlen
  refine ⟨?_, hc.buffers_nonneg, hc.listed_nodup, fun x hx => ?_, fun x hx => ?_, ?_, ?_,
    c.len_updatePage hlen hc.len_nonneg⟩
  · rw [c.bytes_congr hlenEq]
    exact hc.evict
  · rw [keys_updatePage]
    exact hc.listed_live x hx
  · by_cases hx' : id = x
    · subst hx'
      have := hc.listed_open id hx
      simp only [Client.hasBuffer, Client.updatePage, find?_modify] at this ⊢
      cases hp : find? id c.pages with
      | none => simp [hp] at this
      | some p => simpa [hp, hbuf hx p] using this
    · rw [c.hasBuffer_updatePage_ne f hx']
      exact hc.listed_open x hx
  · rw [keys_updatePage]
    exact hc.pages_nodup
  · rw [keys_updatePage]
    exact hc.numPages_eq

end Updates

section Reservation

variable (cfg : Config) {c : Client}

theorem prepareToAllocateBuffer_inv (hc : Inv c) {len : Int} (hlen : 0 ≤ len)
    (reserved granted : Bool) (es : List Event) :
    Inv (c.prepareToAllocateBuffer cfg len reserved granted es).2.1 := by
  unfold Client.prepareToAllocateBuffer
  dsimp only
  split_ifs with hguard hres
  · exact hc
  · have hc₁ := hc.setUsedReservation (c.usedReservation + len)
    obtain ⟨hc₂, -, hroom⟩ := cleanPages_spec cfg hc₁ len false es
    generalize Client.cleanPages cfg { c with usedReservation := c.usedReservation + len } len false
      es = r at hc₂ hroom ⊢
    obtain ⟨o, c₂⟩ := r
    cases o with
    | ok => exact hc₂.addBuffers (hroom rfl) hlen
    | error => exact hc₂.setUsedReservation _
    | waiting => exact hc₂
  · have hc₁ := (hc.addReservation (le_max_left 0 (len - (c.reservation - c.usedReservation)))
      ).setUsedReservation (c.usedReservation + len)
    obtain ⟨hc₂, -, hroom⟩ := cleanPages_spec cfg hc₁ len false es
    generalize Client.cleanPages cfg
      { c with reservation := c.reservation + max 0 (len - (c.reservation - c.usedReservation)),
               usedReservation := c.usedReservation + len } len false es = r at hc₂ hroom ⊢
    obtain ⟨o, c₂⟩ := r
    cases o with
    | ok => exact hc₂.addBuffers (hroom rfl) hlen
    | error => exact hc₂.setUsedReservation _
    | waiting => exact hc₂

theorem decreaseReservationTo_inv (hc : Inv c) (maxDecrease targetBytes : Int) (es : List Event) :
    Inv (c.decreaseReservationTo cfg maxDecrease targetBytes es).2 := by
  unfold Client.decreaseReservationTo
  dsimp only
  split_ifs with hzero
  · exact hc
  · set amount := min maxDecrease (c.reservation - targetBytes)
    obtain ⟨hc₂, -, hroom⟩ := cleanPages_spec cfg hc amount false es
    generalize c.cleanPages cfg amount false es = r at hc₂ hroom ⊢
    obtain ⟨o, c₂⟩ := r
    cases o with
    | ok => exact hc₂.subReservation (hroom rfl)
    | error => exact hc₂
    | waiting => exact hc₂

theorem transferReservationTo_inv (hc : Inv c) (bytes : Int) (accepted : Bool) (es : List Event) :
    Inv (c.transferReservationTo cfg bytes accepted es).2 := by
  unfold Client.transferReservationTo
  obtain ⟨hc₂, -, hroom⟩ := cleanPages_spec cfg hc bytes true es
  generalize c.cleanPages cfg bytes true es = r at hc₂ hroom ⊢
  obtain ⟨o, c₂⟩ := r
  cases o with
  | ok =>
    cases accepted
    · exact hc₂
    · exact hc₂.subReservation (hroom rfl)
  | error => exact hc₂
  | waiting => exact hc₂

end Reservation

section Pages

variable {c : Client}

theorem bytes_agree {c' : Client} {l : List PageId} (h : ∀ x ∈ l, c'.pageLen x = c.pageLen x) :
    c'.bytes l = c.bytes l := by
  unfold Client.bytes
  rw [List.map_congr_left h]

theorem Inv.of_sublist {c' : Client} (hc : Inv c) (hsub : c'.listed.Sublist c.listed)
    (hpages : c'.pages = c.pages) (hnum : c'.numPages = c.numPages)
    (hbuf : c'.buffersAllocatedBytes = c.buffersAllocatedBytes)
    (hevict : c'.buffersAllocatedBytes + c'.bytes c'.pinnedPages + c'.bytes c'.dirtyUnpinnedPages +
      c'.bytes c'.inFlightWritePages ≤ c'.reservation) : Inv c' where
  evict := hevict
  buffers_nonneg := hbuf ▸ hc.buffers_nonneg
  listed_nodup := hsub.nodup hc.listed_nodup
  listed_live id h := hpages ▸ hc.listed_live id (hsub.subset h)
  listed_open id h := by
    rw [hasBuffer_of_pages _ hpages]
    exact hc.listed_open id (hsub.subset h)
  pages_nodup := hpages ▸ hc.pages_nodup
  numPages_eq := by rw [hnum, hpages]; exact hc.numPages_eq
  len_nonneg := hpages ▸ hc.len_nonneg

theorem Inv.pinNew (hc : Inv c) {id : PageId} (hnot : id ∉ c.listed) (hopen : c.hasBuffer id = true)
    (hk : id ∈ keys c.pages) (hroom : Room c (c.pageLen id)) :
    Inv { c with pinnedPages := c.pinnedPages ++ [id] } := by
  have hperm : (id :: c.listed).Perm { c with pinnedPages := c.pinnedPages ++ [id] }.listed := by
    rw [List.perm_iff_count]
    intro a
    simp only [Client.listed, List.count_append, List.count_cons, List.count_nil]
    omega
  refine ⟨?_, hc.buffers_nonneg, hperm.nodup_iff.mp (List.nodup_cons.mpr ⟨hnot, hc.listed_nodup⟩),
    fun x hx => ?_, fun x hx => ?_, hc.pages_nodup, hc.numPages_eq, hc.len_nonneg⟩
  · unfold Room at hroom
    show c.buffersAllocatedBytes + c.bytes (c.pinnedPages ++ [id]) + c.bytes c.dirtyUnpinnedPages +
      c.bytes c.inFlightWritePages ≤ c.reservation
    simp only [bytes_append, bytes_cons, bytes_nil]
    omega
  · rcases List.mem_cons.mp (hperm.mem_iff.mpr hx) with rfl | hx
    · exact hk
    · exact hc.listed_live x hx
  · rcases List.mem_cons.mp (hperm.mem_iff.mpr hx) with rfl | hx
    · exact hopen
    · exact hc.listed_open x hx

theorem createPinnedPage_inv (hc : Inv c) {id : PageId} {len : Int} (hfresh : id ∉ keys c.pages)
    (hlen : 0 ≤ len) (hB : len ≤ c.buffersAllocatedBytes) : Inv (c.createPinnedPage id len) := by
  set c' := c.createPinnedPage id len
  have hnot : id ∉ c.listed := fun h => hfresh (hc.listed_live id h)
  have hagree : ∀ x, x ≠ id → c'.pageLen x = c.pageLen x := by
    intro x hx
    simp [c', Client.createPinnedPage, Client.pageLen, find?_cons, Ne.symm hx]
  have hbytes : ∀ l : List PageId, id ∉ l → c'.bytes l = c.bytes l :=
    fun l hl => bytes_agree fun x hx => hagree x fun h => hl (h ▸ hx)
  have hid : c'.pageLen id = len := by simp [c', Client.createPinnedPage, Client.pageLen, find?_cons]
  have hperm : (id :: c.listed).Perm c'.listed := by
    rw [List.perm_iff_count]
    intro a
    simp only [c', Client.createPinnedPage, Client.listed, List.count_append, List.count_cons,
      List.count_nil]
    omega
  have hsubP : id ∉ c.pinnedPages := fun h => hnot (by simp [Client.listed, h])
  have hsubD : id ∉ c.dirtyUnpinnedPages := fun h => hnot (by simp [Client.listed, h])
  have hsubI : id ∉ c.inFlightWritePages := fun h => hnot (by simp [Client.listed, h])
  refine ⟨?_, ?_, hperm.nodup_iff.mp (List.nodup_cons.mpr ⟨hnot, hc.listed_nodup⟩),
    fun x hx => ?_, fun x hx => ?_, ?_, ?_, ?_⟩
  · have hevict := hc.evict
    show c.buffersAllocatedBytes - len + c'.bytes (c.pinnedPages ++ [id]) +
      c'.bytes c.dirtyUnpinnedPages + c'.bytes c.inFlightWritePages ≤ c.reservation
    rw [bytes_append, bytes_cons, bytes_nil, hbytes _ hsubP, hbytes _ hsubD, hbytes _ hsubI, hid]
    omega
  · show 0 ≤ c.buffersAllocatedBytes - len
    omega
  · rcases List.mem_cons.mp (hperm.mem_iff.mpr hx) with rfl | hx
    · simp [c', Client.createPinnedPage]
    · simp [c', Client.createPinnedPage, hc.listed_live x hx]
  · rcases List.mem_cons.mp (hperm.mem_iff.mpr hx) with rfl | hx
    · simp [c', Client.createPinnedPage, Client.hasBuffer, find?_cons]
    · have hne : x ≠ id := fun h => hnot (h ▸ hx)
      have := hc.listed_open x hx
      simpa [c', Client.createPinnedPage, Client.hasBuffer, find?_cons, Ne.symm hne] using this
  · simpa [c', Client.createPinnedPage] using ⟨hfresh, hc.pages_nodup⟩
  · simp [c', Client.createPinnedPage, hc.numPages_eq]
  · intro e he
    rcases List.mem_cons.mp he with rfl | he
    · exact hlen
    · exact hc.len_nonneg e he

end Pages

section Destroy

variable (cfg : Config) {c : Client}

theorem Inv.dropPage (hc : Inv c) {id : PageId} (outBuffer : Bool) (hnot : id ∉ c.listed)
    (hk : id ∈ keys c.pages) (hroom : outBuffer = true → Room c (c.pageLen id)) :
    Inv (c.dropPage id outBuffer) := by
  set c' := c.dropPage id outBuffer
  have hagree : ∀ x, x ≠ id → c'.pageLen x = c.pageLen x := by
    intro x hx
    simp [c', Client.dropPage, Client.pageLen, find?_erase_ne _ (Ne.symm hx)]
  have hbytes : ∀ l : List PageId, id ∉ l → c'.bytes l = c.bytes l :=
    fun l hl => bytes_agree fun x hx => hagree x fun h => hl (h ▸ hx)
  have hsubP : id ∉ c.pinnedPages := fun h => hnot (by simp [Client.listed, h])
  have hsubD : id ∉ c.dirtyUnpinnedPages := fun h => hnot (by simp [Client.listed, h])
  have hsubI : id ∉ c.inFlightWritePages := fun h => hnot (by simp [Client.listed, h])
  have hevict := hc.evict
  have hlen := hc.pageLen_nonneg id
  have hB := hc.buffers_nonneg
  refine ⟨?_, ?_, hc.listed_nodup, fun x hx => ?_, fun x hx => ?_, Nodup.erase hc.pages_nodup id,
    ?_, fun e he => hc.len_nonneg e (mem_erase.mp he).1⟩
  · show c'.buffersAllocatedBytes + c'.bytes c.pinnedPages + c'.bytes c.dirtyUnpinnedPages +
      c'.bytes c.inFlightWritePages ≤ c.reservation
    rw [hbytes _ hsubP, hbytes _ hsubD, hbytes _ hsubI]
    cases outBuffer with
    | false => exact hevict
    | true =>
      have := hroom rfl
      unfold Room at this
      show c.buffersAllocatedBytes + c.pageLen id + c.bytes c.pinnedPages +
        c.bytes c.dirtyUnpinnedPages + c.bytes c.inFlightWritePages ≤ c.reservation
      omega
  · show 0 ≤ if outBuffer then c.buffersAllocatedBytes + c.pageLen id else c.buffersAllocatedBytes
    split_ifs <;> omega
  · have hne : x ≠ id := fun h => hnot (h ▸ hx)
    show x ∈ keys (erase id c.pages)
    rw [keys_erase, List.mem_filter]
    exact ⟨hc.listed_live x hx, by simpa using hne⟩
  · have hne : x ≠ id := fun h => hnot (h ▸ hx)
    have := hc.listed_open x hx
    simpa [c', Client.dropPage, Client.hasBuffer, find?_erase_ne _ (Ne.symm hne)] using this
  · have hl := length_erase hc.pages_nodup hk
    have hkeys : (keys (erase id c.pages)).length + 1 = (keys c.pages).length := by
      simpa [keys] using hl
    show c.numPages - 1 = ((keys (erase id c.pages)).length : Int)
    rw [hc.numPages_eq]
    omega

theorem Inv.erasePinned (hc : Inv c) (id : PageId) :
    Inv { c with pinnedPages := c.pinnedPages.erase id } := by
  refine hc.of_sublist ?_ rfl rfl rfl ?_
  · simp only [Client.listed]
    exact ((List.erase_sublist.append_right _).append_right _).append_right _
  · have hevict := hc.evict
    have hle : c.bytes (c.pinnedPages.erase id) ≤ c.bytes c.pinnedPages := by
      by_cases h : id ∈ c.pinnedPages
      · rw [c.bytes_erase h] at ⊢
        have := hc.pageLen_nonneg id
        omega
      · rw [List.erase_of_not_mem h]
    show c.buffersAllocatedBytes + c.bytes (c.pinnedPages.erase id) + c.bytes c.dirtyUnpinnedPages +
      c.bytes c.inFlightWritePages ≤ c.reservation
    omega

theorem Inv.eraseDirty (hc : Inv c) (id : PageId) :
    Inv { c with dirtyUnpinnedPages := c.dirtyUnpinnedPages.erase id } := by
  refine hc.of_sublist ?_ rfl rfl rfl ?_
  · simp only [Client.listed]
    exact ((List.erase_sublist.append_left _).append_right _).append_right _
  · have hevict := hc.evict
    have hle : c.bytes (c.dirtyUnpinnedPages.erase id) ≤ c.bytes c.dirtyUnpinnedPages := by
      by_cases h : id ∈ c.dirtyUnpinnedPages
      · rw [c.bytes_erase h] at ⊢
        have := hc.pageLen_nonneg id
        omega
      · rw [List.erase_of_not_mem h]
    show c.buffersAllocatedBytes + c.bytes c.pinnedPages + c.bytes (c.dirtyUnpinnedPages.erase id) +
      c.bytes c.inFlightWritePages ≤ c.reservation
    omega

theorem Inv.not_mem_erase_listed (hc : Inv c) {id : PageId} :
    (id ∈ c.pinnedPages → id ∉ { c with pinnedPages := c.pinnedPages.erase id }.listed) ∧
      (id ∈ c.dirtyUnpinnedPages →
        id ∉ { c with dirtyUnpinnedPages := c.dirtyUnpinnedPages.erase id }.listed) ∧
      (id ∈ c.allocatorCleanPages →
        id ∉ { c with allocatorCleanPages := c.allocatorCleanPages.erase id }.listed) := by
  have hnd := hc.listed_nodup
  simp only [Client.listed, List.nodup_append, List.mem_append] at hnd
  refine ⟨fun h hm => ?_, fun h hm => ?_, fun h hm => ?_⟩ <;>
    simp only [Client.listed, List.mem_append] at hm
  · rcases hm with ((hm | hm) | hm) | hm
    · exact hnd.1.1.1.not_mem_erase hm
    · exact hnd.1.1.2.2 id h id hm rfl
    · exact hnd.1.2.2 id (.inl h) id hm rfl
    · exact hnd.2.2 id (.inl (.inl h)) id hm rfl
  · rcases hm with ((hm | hm) | hm) | hm
    · exact hnd.1.1.2.2 id hm id h rfl
    · exact hnd.1.1.2.1.not_mem_erase hm
    · exact hnd.1.2.2 id (.inr h) id hm rfl
    · exact hnd.2.2 id (.inl (.inr h)) id hm rfl
  · rcases hm with ((hm | hm) | hm) | hm
    · exact hnd.2.2 id (.inl (.inl hm)) id h rfl
    · exact hnd.2.2 id (.inl (.inr hm)) id h rfl
    · exact hnd.2.2 id (.inr hm) id h rfl
    · exact hnd.2.1.not_mem_erase hm

theorem Inv.eraseClean (hc : Inv c) {id : PageId} (hin : id ∈ c.allocatorCleanPages)
    (f : Page → Page) (hf : ∀ p, (f p).len = p.len) :
    Inv { c.updatePage id f with allocatorCleanPages := c.allocatorCleanPages.erase id } := by
  have hc₁ : Inv { c with allocatorCleanPages := c.allocatorCleanPages.erase id } :=
    hc.of_sublist (by simp only [Client.listed]; exact List.erase_sublist.append_left _) rfl rfl rfl
      hc.evict
  exact hc₁.updatePage hf fun h => absurd h (hc.not_mem_erase_listed.2.2 hin)

theorem removeCleanPage_of_clean {id : PageId} (claimBuffer : Bool)
    (h : c.hasBuffer id = true ∧ id ∈ c.allocatorCleanPages) :
    c.removeCleanPage claimBuffer id =
      (true, { (if claimBuffer then c else c.updatePage id fun p => { p with bufferOpen := false }) with
        allocatorCleanPages := c.allocatorCleanPages.erase id }) := by
  simp [Client.removeCleanPage, h.1, h.2]

theorem removeCleanPage_of_not {id : PageId} (claimBuffer : Bool)
    (h : ¬ (c.hasBuffer id = true ∧ id ∈ c.allocatorCleanPages)) :
    c.removeCleanPage claimBuffer id = (false, c) := by
  simp only [Client.removeCleanPage, Bool.and_eq_true, decide_eq_true_eq]
  rw [if_neg h]

theorem destroyPageInternal_inv (hc : Inv c) {id : PageId} (hk : id ∈ keys c.pages)
    (outBuffer : Bool) (hout : outBuffer = true → id ∈ c.pinnedPages) (es : List Event) :
    Inv (c.destroyPageInternal cfg id outBuffer es).2 := by
  unfold Client.destroyPageInternal
  split_ifs with hp hd
  · have hroom : Room { c with pinnedPages := c.pinnedPages.erase id }
        ({ c with pinnedPages := c.pinnedPages.erase id }.pageLen id) := by
      have hevict := hc.evict
      have hb := c.bytes_erase hp
      unfold Room
      show c.buffersAllocatedBytes + c.bytes (c.pinnedPages.erase id) + c.bytes c.dirtyUnpinnedPages +
        c.bytes c.inFlightWritePages + c.pageLen id ≤ c.reservation
      omega
    exact (hc.erasePinned id).dropPage outBuffer (hc.not_mem_erase_listed.1 hp) hk fun _ => hroom
  · have hfalse : outBuffer = false := by
      cases outBuffer
      · rfl
      · exact absurd (hout rfl) hp
    subst hfalse
    exact (hc.eraseDirty id).dropPage false (hc.not_mem_erase_listed.2.1 hd) hk fun h => by cases h
  · have hfalse : outBuffer = false := by
      cases outBuffer
      · rfl
      · exact absurd (hout rfl) hp
    subst hfalse
    obtain ⟨hc₁, hf₁, hdone⟩ := waitForWrite_spec cfg id es c hc
    generalize c.waitForWrite cfg id es = w at hc₁ hf₁ hdone ⊢
    obtain ⟨c₁, w⟩ := w
    cases w with
    | none => exact hc₁
    | some es' =>
      dsimp only
      have hk₁ : id ∈ keys c₁.pages := hf₁.keys ▸ hk
      have hnP : id ∉ c₁.pinnedPages := hf₁.pinned ▸ hp
      have hnD : id ∉ c₁.dirtyUnpinnedPages := fun h => hd (hf₁.dirty_sub id h)
      have hnI : id ∉ c₁.inFlightWritePages := hdone rfl
      by_cases hcl : c₁.hasBuffer id = true ∧ id ∈ c₁.allocatorCleanPages
      · rw [removeCleanPage_of_clean false hcl]
        have hgone := hc₁.not_mem_erase_listed.2.2 hcl.2
        exact (hc₁.eraseClean hcl.2 (fun p => { p with bufferOpen := false }) fun _ => rfl).dropPage
          false hgone (by simpa [Client.updatePage] using hk₁) fun h => by cases h
      · rw [removeCleanPage_of_not false hcl]
        have hnC : id ∉ c₁.allocatorCleanPages := fun h =>
          hcl ⟨hc₁.listed_open id (by simp [Client.listed, h]), h⟩
        exact hc₁.dropPage false (by simp [Client.listed, hnP, hnD, hnI, hnC]) hk₁ fun h => by cases h

end Destroy

section Pin

variable (cfg : Config) {c : Client}

theorem startMoveEvictedToPinned_inv (hc : Inv c) {id : PageId} (hnot : id ∉ c.listed)
    (hk : id ∈ keys c.pages) (hroom : Room c (c.pageLen id)) (allocateOk readOk : Bool) :
    Inv (c.startMoveEvictedToPinned id allocateOk readOk).2 := by
  unfold Client.startMoveEvictedToPinned
  set open₁ : Page → Page := fun p => { p with bufferOpen := true }
  have hc₁ : Inv (c.updatePage id open₁) := hc.updatePage (fun _ => rfl) fun h => absurd h hnot
  have hlen₁ := c.pageLen_updatePage id open₁ fun _ => rfl
  split_ifs with halloc hread
  · exact hc
  · exact hc₁
  · set c₂ := (c.updatePage id open₁).updatePage id fun p => { p with pinInFlight := true }
    have hlen₂ := (c.updatePage id open₁).pageLen_updatePage id
      (fun p => { p with pinInFlight := true }) fun _ => rfl
    have hc₂ : Inv c₂ := hc₁.updatePage (fun _ => rfl) fun _ _ => rfl
    have hopen : c₂.hasBuffer id = true := by
      rw [show c₂.hasBuffer = (c.updatePage id open₁).hasBuffer from
        (c.updatePage id open₁).hasBuffer_updatePage_of fun _ => rfl]
      exact c.hasBuffer_updatePage_self (fun _ => rfl) hk
    have hroom₂ : Room c₂ (c₂.pageLen id) := by
      unfold Room at hroom ⊢
      rw [c.bytes_congr (hlen₂.trans hlen₁), hlen₂, hlen₁]
      exact hroom
    exact hc₂.pinNew hnot hopen (by simpa [c₂] using hk) hroom₂

theorem startMoveToPinned_inv (hc : Inv c) {id : PageId} (hnp : id ∉ c.pinnedPages)
    (hk : id ∈ keys c.pages) (es : List Event) (restoreOk allocateOk readOk : Bool) :
    Inv (c.startMoveToPinned cfg id es restoreOk allocateOk readOk).2 := by
  unfold Client.startMoveToPinned
  dsimp only
  by_cases hws : (!c.writeStatus) = true
  · rw [if_pos hws]
    exact hc
  rw [if_neg hws]
  by_cases hd : id ∈ c.dirtyUnpinnedPages
  · rw [if_pos hd]
    refine hc.of_perm (listed_perm_pinDirty hd) rfl rfl rfl ?_
    have hevict := hc.evict
    have hb := c.bytes_erase hd
    show c.buffersAllocatedBytes + c.bytes (c.pinnedPages ++ [id]) +
      c.bytes (c.dirtyUnpinnedPages.erase id) + c.bytes c.inFlightWritePages ≤ c.reservation
    simp only [bytes_append, bytes_cons, bytes_nil]
    omega
  · rw [if_neg hd]
    have hwait : ∃ c₁ w, (if id ∈ c.inFlightWritePages then c.waitForWrite cfg id es
        else (c, some es)) = (c₁, w) ∧ Inv c₁ ∧ Frame c c₁ ∧
          (w.isSome → id ∉ c₁.inFlightWritePages) := by
      split_ifs with hin
      · obtain ⟨hc₁, hf₁, hdone⟩ := waitForWrite_spec cfg id es c hc
        exact ⟨_, _, rfl, hc₁, hf₁, hdone⟩
      · exact ⟨c, some es, rfl, hc, Frame.refl c, fun _ => hin⟩
    obtain ⟨c₁, w, hw, hc₁, hf₁, hdone⟩ := hwait
    rw [hw]
    cases w with
    | none => exact hc₁
    | some es' =>
      dsimp only
      by_cases hws₁ : (!c₁.writeStatus) = true
      · rw [if_pos hws₁]
        exact hc₁
      · rw [if_neg hws₁]
        obtain ⟨hc₂, hf₂, hroom⟩ := cleanPages_spec cfg hc₁ (c₁.pageLen id) false es'
        generalize c₁.cleanPages cfg (c₁.pageLen id) false es' = r at hc₂ hf₂ hroom ⊢
        obtain ⟨o, c₂⟩ := r
        cases o with
        | error => exact hc₂
        | waiting => exact hc₂
        | ok =>
          dsimp only
          have hroom₂ : Room c₂ (c₂.pageLen id) := by
            rw [hf₂.pageLen]
            exact hroom rfl
          have hnP : id ∉ c₂.pinnedPages := by rw [hf₂.pinned, hf₁.pinned]; exact hnp
          have hnD₁ : id ∉ c₁.dirtyUnpinnedPages := fun h => hd (hf₁.dirty_sub id h)
          have hnD : id ∉ c₂.dirtyUnpinnedPages := fun h => hnD₁ (hf₂.dirty_sub id h)
          have hnI : id ∉ c₂.inFlightWritePages := fun h =>
            (hf₂.inFlight_sub id h).elim hnD₁ (hdone rfl)
          have hk₂ : id ∈ keys c₂.pages := by rw [hf₂.keys, hf₁.keys]; exact hk
          by_cases hcl : c₂.hasBuffer id = true ∧ id ∈ c₂.allocatorCleanPages
          · rw [removeCleanPage_of_clean true hcl]
            dsimp only
            refine hc₂.of_perm (listed_perm_pinClean hcl.2) rfl rfl rfl ?_
            have hevict := hroom₂
            unfold Room at hevict
            show c₂.buffersAllocatedBytes + c₂.bytes (c₂.pinnedPages ++ [id]) +
              c₂.bytes c₂.dirtyUnpinnedPages + c₂.bytes c₂.inFlightWritePages ≤ c₂.reservation
            simp only [bytes_append, bytes_cons, bytes_nil]
            omega
          · rw [removeCleanPage_of_not true hcl]
            dsimp only
            have hnC : id ∉ c₂.allocatorCleanPages := fun h =>
              hcl ⟨hc₂.listed_open id (by simp [Client.listed, h]), h⟩
            exact startMoveEvictedToPinned_inv hc₂ (by simp [Client.listed, hnP, hnD, hnI, hnC])
              hk₂ hroom₂ allocateOk readOk

theorem undoMoveEvictedToPinned_inv (hc : Inv c) {id : PageId} (hp : id ∈ c.pinnedPages) :
    Inv (c.undoMoveEvictedToPinned id) := by
  have hgone := hc.not_mem_erase_listed.1 hp
  exact (hc.erasePinned id).updatePage (f := fun p => { p with pinInFlight := false, bufferOpen := false })
    (fun _ => rfl) fun h => absurd h hgone

theorem finishMoveEvictedToPinned_inv (hc : Inv c) (id : PageId) (readOk : Bool) :
    Inv (c.finishMoveEvictedToPinned id readOk).2 := by
  unfold Client.finishMoveEvictedToPinned
  split_ifs
  · exact hc
  · exact hc
  · exact hc.updatePage (fun _ => rfl) fun _ _ => rfl

theorem moveToDirtyUnpinned_inv (hc : Inv c) {id : PageId} (hp : id ∈ c.pinnedPages) :
    Inv (c.moveToDirtyUnpinned cfg id) := by
  have hc₁ : Inv { c with
      pinnedPages := c.pinnedPages.erase id
      dirtyUnpinnedPages := id :: c.dirtyUnpinnedPages } := by
    refine hc.of_perm (listed_perm_unpin hp) rfl rfl rfl ?_
    have hevict := hc.evict
    have hb := c.bytes_erase hp
    show c.buffersAllocatedBytes + c.bytes (c.pinnedPages.erase id) +
      c.bytes (id :: c.dirtyUnpinnedPages) + c.bytes c.inFlightWritePages ≤ c.reservation
    rw [bytes_cons]
    omega
  exact (writeDirtyPagesAsync_spec cfg hc₁ 0).1

end Pin

section PinCalls

variable (cfg : Config) {c : Client}

theorem pin_inv (hc : Inv c) {id : PageId}
    (hfirst : ∀ p, find? id c.pages = some p → p.pinCount = 0 → id ∉ c.pinnedPages)
    (es : List Event) (restoreOk allocateOk readOk : Bool) :
    Inv (c.pin cfg id es restoreOk allocateOk readOk).2 := by
  unfold Client.pin
  cases hf : find? id c.pages with
  | none => exact hc
  | some page =>
    dsimp only
    have hmove : Inv (if page.pinCount = 0 then
        c.startMoveToPinned cfg id es restoreOk allocateOk readOk else (.ok, c)).2 := by
      split_ifs with h0
      · exact startMoveToPinned_inv cfg hc (hfirst page hf h0) (mem_keys_of_find? hf) es
          restoreOk allocateOk readOk
      · exact hc
    generalize (if page.pinCount = 0 then
        c.startMoveToPinned cfg id es restoreOk allocateOk readOk else (.ok, c)) = r at hmove ⊢
    obtain ⟨o, c₁⟩ := r
    cases o with
    | ok =>
      exact (hmove.updatePage (f := fun p => { p with pinCount := p.pinCount + 1 }) (fun _ => rfl)
        fun _ _ => rfl).setUsedReservation _
    | error => exact hmove
    | waiting => exact hmove

theorem unpin_inv (hc : Inv c) {id : PageId}
    (hlast : ∀ p, find? id c.pages = some p → p.pinCount - 1 = 0 → id ∈ c.pinnedPages) :
    Inv (c.unpin cfg id) := by
  unfold Client.unpin
  cases hf : find? id c.pages with
  | none => exact hc
  | some page =>
    dsimp only
    set c₁ := { c.updatePage id (fun p => { p with pinCount := p.pinCount - 1 }) with
      usedReservation := c.usedReservation - page.len }
    have hc₁ : Inv c₁ := (hc.updatePage (f := fun p => { p with pinCount := p.pinCount - 1 })
      (fun _ => rfl) fun _ _ => rfl).setUsedReservation _
    split_ifs with hmore hflight
    · exact hc₁
    · exact undoMoveEvictedToPinned_inv hc₁ (hlast page hf (by omega))
    · exact moveToDirtyUnpinned_inv cfg hc₁ (hlast page hf (by omega))

end PinCalls

section Runs

/-- The calls a client serves and the events that happen while it waits. -/
inductive Call where
  | event (e : Event)
  | prepareToAllocateBuffer (len : Int) (reserved granted : Bool) (events : List Event)
  | createPinnedPage (id : PageId) (len : Int)
  | destroyPageInternal (id : PageId) (outBuffer : Bool) (events : List Event)
  | pin (id : PageId) (events : List Event) (restoreOk allocateOk readOk : Bool)
  | finishMoveEvictedToPinned (id : PageId) (readOk : Bool)
  | unpin (id : PageId)
  | decreaseReservationTo (maxDecrease targetBytes : Int) (events : List Event)
  | transferReservationTo (bytes : Int) (accepted : Bool) (events : List Event)

variable (cfg : Config)

def Client.call (c : Client) : Call → Client
  | .event e => c.applyEvent cfg e
  | .prepareToAllocateBuffer len reserved granted es =>
    (c.prepareToAllocateBuffer cfg len reserved granted es).2.1
  | .createPinnedPage id len => c.createPinnedPage id len
  | .destroyPageInternal id outBuffer es => (c.destroyPageInternal cfg id outBuffer es).2
  | .pin id es restoreOk allocateOk readOk => (c.pin cfg id es restoreOk allocateOk readOk).2
  | .finishMoveEvictedToPinned id readOk => (c.finishMoveEvictedToPinned id readOk).2
  | .unpin id => c.unpin cfg id
  | .decreaseReservationTo maxDecrease targetBytes es =>
    (c.decreaseReservationTo cfg maxDecrease targetBytes es).2
  | .transferReservationTo bytes accepted es => (c.transferReservationTo cfg bytes accepted es).2

/-- What the caller promises: a new page is fresh and its buffer was returned
to the client, a destroyed page is live, and a page is pinned from the pinned
list exactly when its pin count is positive. -/
def Call.Allowed (c : Client) : Call → Prop
  | .prepareToAllocateBuffer len _ _ _ => 0 ≤ len
  | .createPinnedPage id len => id ∉ keys c.pages ∧ 0 ≤ len ∧ len ≤ c.buffersAllocatedBytes
  | .destroyPageInternal id outBuffer _ =>
    id ∈ keys c.pages ∧ (outBuffer = true → id ∈ c.pinnedPages)
  | .pin id _ _ _ _ => ∀ p, find? id c.pages = some p → p.pinCount = 0 → id ∉ c.pinnedPages
  | .unpin id => ∀ p, find? id c.pages = some p → p.pinCount - 1 = 0 → id ∈ c.pinnedPages
  | _ => True

def Client.run (c : Client) (ks : List Call) : Client := ks.foldl (Client.call cfg) c

def RunAllowed : Client → List Call → Prop
  | _, [] => True
  | c, k :: ks => k.Allowed c ∧ RunAllowed (c.call cfg k) ks

theorem Inv.call {c : Client} (hc : Inv c) (k : Call) (hk : k.Allowed c) : Inv (c.call cfg k) := by
  cases k with
  | event e => exact (applyEvent_spec cfg hc e).1
  | prepareToAllocateBuffer len reserved granted es =>
    exact prepareToAllocateBuffer_inv cfg hc hk reserved granted es
  | createPinnedPage id len => exact createPinnedPage_inv hc hk.1 hk.2.1 hk.2.2
  | destroyPageInternal id outBuffer es => exact destroyPageInternal_inv cfg hc hk.1 outBuffer hk.2 es
  | pin id es restoreOk allocateOk readOk => exact pin_inv cfg hc hk es restoreOk allocateOk readOk
  | finishMoveEvictedToPinned id readOk => exact finishMoveEvictedToPinned_inv hc id readOk
  | unpin id => exact unpin_inv cfg hc hk
  | decreaseReservationTo maxDecrease targetBytes es =>
    exact decreaseReservationTo_inv cfg hc maxDecrease targetBytes es
  | transferReservationTo bytes accepted es => exact transferReservationTo_inv cfg hc bytes accepted es

theorem Inv.run : ∀ (ks : List Call) (c : Client), Inv c → RunAllowed cfg c ks →
    Inv (c.run cfg ks)
  | [], _, hc, _ => hc
  | k :: ks, c, hc, ⟨hk, hks⟩ => Inv.run ks (c.call cfg k) (hc.call cfg k hk) hks

end Runs

section PinErrors

variable (cfg : Config) {c : Client}

theorem startMoveToPinned_of_cleaned {id : PageId} (hnD : id ∉ c.dirtyUnpinnedPages)
    (hnI : id ∉ c.inFlightWritePages) (hws : c.writeStatus = true) {es : List Event}
    {c₂ : Client} (hclean : c.cleanPages cfg (c.pageLen id) false es = (.ok, c₂))
    (restoreOk allocateOk readOk : Bool) :
    c.startMoveToPinned cfg id es restoreOk allocateOk readOk =
      match c₂.removeCleanPage true id with
      | (true, c) =>
        (if restoreOk then .ok else .error, { c with pinnedPages := c.pinnedPages ++ [id] })
      | (false, c) => c.startMoveEvictedToPinned id allocateOk readOk := by
  unfold Client.startMoveToPinned
  rw [if_neg (by simp [hws]), if_neg hnD]
  dsimp only
  rw [if_neg hnI]
  dsimp only
  rw [if_neg (by simp [hws]), hclean]

/-- Every page that holds a buffer is in one of the client's lists: its bytes
are counted by the eviction policy, or it is clean and can be reclaimed. -/
def BuffersAccounted (c : Client) : Prop := ∀ id, c.hasBuffer id = true → id ∈ c.listed

/-- A read error while pinning an evicted page: Allocate has given the page a
buffer, ReadAsync fails and Pin returns the error, but the page is left with
its buffer and in no list, so neither the reservation's use, the returned
buffers nor any list counts that buffer. -/
theorem pin_read_error_unaccounted (hc : Inv c) {id : PageId} {page : Page}
    (hf : find? id c.pages = some page) (h0 : page.pinCount = 0) (hnot : id ∉ c.listed)
    (hws : c.writeStatus = true) {es : List Event} {c₂ : Client}
    (hclean : c.cleanPages cfg (c.pageLen id) false es = (.ok, c₂)) (restoreOk : Bool) :
    (c.pin cfg id es restoreOk true false).1 = .error ∧
      Inv (c.pin cfg id es restoreOk true false).2 ∧
      ¬ BuffersAccounted (c.pin cfg id es restoreOk true false).2 ∧
      (c.pin cfg id es restoreOk true false).2.usedReservation = c.usedReservation ∧
      (c.pin cfg id es restoreOk true false).2.buffersAllocatedBytes = c.buffersAllocatedBytes := by
  obtain ⟨hc₂, hf₂, -⟩ := cleanPages_spec cfg hc (c.pageLen id) false es
  rw [hclean] at hc₂ hf₂
  have hnL : id ∉ c₂.listed := fun h => hnot (hf₂.listed_sub id h)
  have hnC : id ∉ c₂.allocatorCleanPages := fun h => hnL (by simp [Client.listed, h])
  have hk : id ∈ keys c₂.pages := by rw [hf₂.keys]; exact mem_keys_of_find? hf
  have hmove := startMoveToPinned_of_cleaned cfg (fun h => hnot (by simp [Client.listed, h]))
    (fun h => hnot (by simp [Client.listed, h])) hws hclean restoreOk true false
  rw [removeCleanPage_of_not true fun h => hnC h.2] at hmove
  set open₁ : Page → Page := fun p => { p with bufferOpen := true }
  have hpin : c.pin cfg id es restoreOk true false = (.error, c₂.updatePage id open₁) := by
    unfold Client.pin
    rw [hf]
    dsimp only
    rw [if_pos h0, hmove]
    rfl
  rw [hpin]
  refine ⟨rfl, hc₂.updatePage (fun _ => rfl) fun h => absurd h hnL, fun hacc => ?_,
    hf₂.usedReservation, hf₂.buffers⟩
  exact hnL (hacc id (c₂.hasBuffer_updatePage_self (fun _ => rfl) hk))

theorem pin_read_error_unaccounted_one_page :
    let c : Client := ⟨100, 0, 0, [(0, ⟨10, 0, false, false⟩)], [], [], [], [], 1, true⟩
    (c.pin ⟨true, 1, fun _ _ => true⟩ 0 [] true true false).1 = .error ∧
      ¬ BuffersAccounted (c.pin ⟨true, 1, fun _ _ => true⟩ 0 [] true true false).2 := by
  intro c
  have hc : Inv c := ⟨by decide, by decide, by decide, by decide, by decide, by decide,
    by decide, by decide⟩
  have hclean : c.cleanPages ⟨true, 1, fun _ _ => true⟩ (c.pageLen 0) false [] = (.ok, c) := by
    decide
  obtain ⟨herr, -, hleak, -⟩ := @pin_read_error_unaccounted ⟨true, 1, fun _ _ => true⟩ c hc 0 _
    rfl rfl (by decide) rfl [] c hclean true
  exact ⟨herr, hleak⟩

end PinErrors

end Impala.BufferPool
