import HolLambdas.ChunkHeap
import HolLambdas.MachineInt

/-!
# The tuplestore

`tuplestore.c`: tuples are kept in memory while they fit the budget and go to a temporary file
when they do not. Several read pointers move over them. `tuplestore_putblock` hands a block of
tuples over at once; the store then points into the block and tells the tuples of the block
from its own by their addresses.

Positions in the file are counted in tuples. The contents of the heap are part of the state:
a read through a dangling pointer, a `pfree` of what is not the start of a live chunk, a write
past the array and a failed `Assert` are faults.
-/

namespace HolLambdas

namespace Tuplestore

/-- The capability flags `EXEC_FLAG_REWIND` and `EXEC_FLAG_BACKWARD`. -/
structure ExecFlags where
  rewind : Bool
  backward : Bool
deriving DecidableEq, Repr

def ExecFlags.or (a b : ExecFlags) : ExecFlags := ⟨a.rewind || b.rewind, a.backward || b.backward⟩

/-- The OR of the flags of `n` read pointers. -/
def orFlags (n : Nat) (flags : Nat → ExecFlags) : ExecFlags :=
  (List.range n).foldl (fun all i => all.or (flags i)) ⟨false, false⟩

/-- The smallest of the positions of `n` read pointers, those at end of file apart. -/
def furthestBack (n : Nat) (eof : Nat → Bool) (pos : Nat → Nat) (count : Nat) : Nat :=
  (List.range n).foldl (fun oldest i => if eof i then oldest else min oldest (pos i)) count

/-- Where the tuples are: in memory, or in a temporary file. -/
inductive TupStoreStatus
  | inmem
  | writefile
  | readfile
deriving DecidableEq, Repr

/-- `current` counts in memory, `offset` in the file. -/
structure TSReadPointer where
  eflags : ExecFlags
  eof_reached : Bool
  current : Nat
  offset : Nat
deriving DecidableEq, Repr

structure Tuplestorestate (α : Type) where
  status : TupStoreStatus
  eflags : ExecFlags
  backward : Bool
  truncated : Bool
  availMem : Int
  tuples : Nat
  myfile : List α
  seekpos : Nat
  memtuples : List Nat
  memtupdeleted : Nat
  memtupsize : Nat
  growmemtuples : Bool
  block : Nat
  blockend : Nat
  ownblock : Bool
  readptrs : Nat → TSReadPointer
  readptrcount : Nat
  activeptr : Nat
  writepos : Nat
  heap : Heap α
  allocs : Nat

/-- If all tuples are fetched already the last one is next, else the one before the last
returned. -/
def TSReadPointer.stepBack (r : TSReadPointer) (memtupcount : Nat) : TSReadPointer :=
  if r.eof_reached then { r with current := memtupcount, eof_reached := false }
  else { r with current := r.current - 1 }

/-- What must not happen: memory misused, or a failed assertion. -/
inductive Fault
  | badFree
  | badRead
  | overrun
  | overwrite
  | assertFailed
  | noLengthWord
  | outOfMemory
  | tooLate
deriving DecidableEq, Repr

/-- What the store runs on: its budget and the memory manager, which may place a chunk
anywhere that is free. -/
structure Env (α : Type) where
  allowedMem : Int
  tupleSize : α → Nat
  tupleSize_pos : ∀ t, 0 < tupleSize t
  /-- `GetMemoryChunkSpace` of a tuple or a block. -/
  space : Chunk α → Nat
  /-- The space of an array of `n` pointers is `8 * n + overhead`. -/
  overhead : Nat
  /-- `(int) (memtupsize * grow_ratio)`, computed in float8. -/
  scaled : Nat → Int → Int
  /-- Where the `n`-th chunk goes, by what is live and how large it is. -/
  place : Nat → Heap α → Nat → Nat
  place_ne_zero : ∀ n h size, place n h size ≠ 0
  place_fresh : ∀ n h size, ∀ c ∈ h, place n h size ≠ c.addr ∧
    (place n h size + size ≤ c.addr ∨ c.stop ≤ place n h size)

namespace Tuplestorestate

variable {α : Type}

/-- The valid entries of `memtuples`, deleted ones included. -/
abbrev memtupcount (s : Tuplestorestate α) : Nat := s.memtuples.length

abbrev active (s : Tuplestorestate α) : TSReadPointer := s.readptrs s.activeptr

def setActive (s : Tuplestorestate α) (f : TSReadPointer → TSReadPointer) : Tuplestorestate α :=
  { s with readptrs := Function.update s.readptrs s.activeptr (f s.active) }

/-- `INBLOCK`. -/
def inBlock (s : Tuplestorestate α) (p : Nat) : Bool := s.block ≤ p && p < s.blockend

/-- Read pointers at end of file that are not the active one do not move with a put. -/
def leaveBehind (s : Tuplestorestate α) (mark : TSReadPointer → TSReadPointer) :
    Tuplestorestate α :=
  { s with readptrs := fun i =>
      if (s.readptrs i).eof_reached && i != s.activeptr then
        mark { s.readptrs i with eof_reached := false }
      else s.readptrs i }

variable (env : Env α)

/-! ## Memory -/

/-- Take memory where the allocator puts it. -/
def palloc (s : Tuplestorestate α) (stride : Nat) (cells : List α) (mine : Bool) :
    Nat × Tuplestorestate α :=
  let p := env.place s.allocs s.heap (cells.length * stride)
  (p, { s with heap := ⟨p, stride, cells, mine⟩ :: s.heap, allocs := s.allocs + 1 })

/-- `GetMemoryChunkSpace`. -/
def chunkSpace (s : Tuplestorestate α) (p : Nat) : Nat :=
  match s.heap.find? fun c => c.addr == p with
  | some c => env.space c
  | none => 0

def pfree (s : Tuplestorestate α) (p : Nat) : Except Fault (Tuplestorestate α) :=
  match s.heap.remove p true with
  | some heap => .ok { s with heap := heap }
  | none => .error .badFree

/-- The caller may give up a block that is theirs once the store is done with it. -/
def letGo (s : Tuplestorestate α) (p : Nat) : Tuplestorestate α :=
  match s.heap.remove p false with
  | some heap => { s with heap := heap }
  | none => s

/-- `FREEMEM` and `pfree`. -/
def freeChunk (s : Tuplestorestate α) (p : Nat) : Except Fault (Tuplestorestate α) :=
  pfree { s with availMem := s.availMem + chunkSpace env s p } p

/-- Release tuples, but not those of the block. -/
def freeTuples : List Nat → Tuplestorestate α → Except Fault (Tuplestorestate α)
  | [], s => .ok s
  | p :: ps, s =>
    if s.inBlock p then freeTuples ps s
    else (freeChunk env s p).bind (freeTuples ps)

/-- Release the block, if there is one. -/
def freeBlock (s : Tuplestorestate α) : Except Fault (Tuplestorestate α) :=
  if s.block = 0 then .ok s
  else
    (if s.ownblock then freeChunk env s s.block else .ok (s.letGo s.block)).map fun s =>
      { s with block := 0, blockend := 0 }

/-! ## Setting up -/

/-- `tuplestore_begin_heap`. -/
def beginHeap (randomAccess : Bool) : Tuplestorestate α where
  status := .inmem
  eflags := ⟨true, randomAccess⟩
  backward := false
  truncated := false
  availMem := env.allowedMem - (8 * 2048 + env.overhead : Nat)
  tuples := 0
  myfile := []
  seekpos := 0
  memtuples := []
  memtupdeleted := 0
  memtupsize := 2048
  growmemtuples := true
  block := 0
  blockend := 0
  ownblock := false
  readptrs := fun _ => ⟨⟨true, randomAccess⟩, false, 0, 0⟩
  readptrcount := 1
  activeptr := 0
  writepos := 0
  heap := []
  allocs := 0

def allFlags (s : Tuplestorestate α) : ExecFlags :=
  orFlags s.readptrcount fun i => (s.readptrs i).eflags

/-- `tuplestore_set_eflags`. -/
def setEflags (s : Tuplestorestate α) (eflags : ExecFlags) : Except Fault (Tuplestorestate α) :=
  if s.status ≠ .inmem ∨ s.memtupcount ≠ 0 then .error .tooLate
  else
    let readptr := { s.readptrs 0 with eflags := eflags }
    let s := { s with readptrs := Function.update s.readptrs 0 readptr }
    .ok { s with eflags := s.allFlags }

/-- `tuplestore_alloc_read_pointer`. -/
def allocReadPointer (s : Tuplestorestate α) (eflags : ExecFlags) :
    Except Fault (Tuplestorestate α) :=
  if (s.status ≠ .inmem ∨ s.memtupcount ≠ 0) ∧ s.eflags.or eflags ≠ s.eflags then .error .tooLate
  else .ok { s with
    readptrs := Function.update s.readptrs s.readptrcount { s.readptrs 0 with eflags := eflags }
    eflags := s.eflags.or eflags
    readptrcount := s.readptrcount + 1 }

/-- A new store with one read pointer for each set of flags. -/
def setUp (first : ExecFlags) (others : List ExecFlags) : Except Fault (Tuplestorestate α) := do
  let s ← (beginHeap env first.backward).setEflags first
  others.foldlM allocReadPointer s

/-! ## Writing -/

/-- `grow_memtuples`: a failed growth leaves the array as it is. -/
def growMemtuples (s : Tuplestorestate α) : Except Fault (Tuplestorestate α) :=
  if s.growmemtuples = false then .ok s
  else
    let memNowUsed := env.allowedMem - s.availMem
    -- once more than half of the budget is used this is the last increment
    let doubles := memNowUsed ≤ s.availMem ∧ (s.memtupsize : Int) < PG_INT32_MAX / 2
    let newmemtupsize : Int :=
      if doubles then s.memtupsize * 2
      else if memNowUsed ≤ s.availMem then PG_INT32_MAX
      else min (env.scaled s.memtupsize memNowUsed) PG_INT32_MAX
    if newmemtupsize ≤ s.memtupsize ∨ s.availMem < (newmemtupsize - s.memtupsize) * 8 then
      .ok { s with growmemtuples := false }
    else
      let s := { s with
        growmemtuples := decide doubles
        memtupsize := newmemtupsize.toNat
        availMem := s.availMem + (8 * s.memtupsize + env.overhead : Nat) -
          (8 * newmemtupsize.toNat + env.overhead : Nat) }
      if s.availMem < 0 then .error .outOfMemory else .ok s

/-- `WRITETUP`. -/
def writetup (s : Tuplestorestate α) (p : Nat) : Except Fault (Tuplestorestate α) :=
  match s.heap.load p with
  | none => .error .badRead
  | some t =>
    if s.seekpos ≠ s.myfile.length then .error .overwrite
    else
      let s := { s with myfile := s.myfile ++ [t], seekpos := s.seekpos + 1 }
      if s.inBlock p then .ok s else freeChunk env s p

/-- The read pointers at a tuple that is about to be written are at the end of the file. -/
def convertPointers (s : Tuplestorestate α) (i : Nat) : Tuplestorestate α :=
  { s with readptrs := fun j =>
      if (s.readptrs j).current = i ∧ (s.readptrs j).eof_reached = false then
        { s.readptrs j with offset := s.seekpos }
      else s.readptrs j }

/-- The loop of `dumptuples`, from array index `i`. -/
def dumpLoop : List Nat → Nat → Tuplestorestate α → Except Fault (Tuplestorestate α)
  | [], i, s => .ok (s.convertPointers i)
  | p :: ps, i, s => (writetup env (s.convertPointers i) p).bind (dumpLoop ps (i + 1))

/-- Move all tuples to the file. -/
def dumptuples (s : Tuplestorestate α) : Except Fault (Tuplestorestate α) := do
  let s ← dumpLoop env (s.memtuples.drop s.memtupdeleted) s.memtupdeleted s
  let s ← freeBlock env s
  return { s with memtupdeleted := 0, memtuples := [] }

/-- The array grows while one slot is still free. -/
def makeRoom (s : Tuplestorestate α) : Except Fault (Tuplestorestate α) :=
  if s.memtupsize ≤ s.memtupcount + 1 then growMemtuples env s else .ok s

/-- Put the tuple into the array; when it or the budget is full all tuples go to the file. -/
def stash (s : Tuplestorestate α) (tuple : Nat) : Except Fault (Tuplestorestate α) :=
  (makeRoom env s).bind fun s =>
    if s.memtupsize ≤ s.memtupcount then .error .overrun
    else
      let s := { s with memtuples := s.memtuples ++ [tuple] }
      if s.memtupcount < s.memtupsize ∧ 0 ≤ s.availMem then .ok s
      else
        dumptuples env { s with
          myfile := [], seekpos := 0, backward := s.eflags.backward, status := .writefile }

/-- Save where the active read pointer is in the file. -/
def saveActive (s : Tuplestorestate α) : Tuplestorestate α :=
  s.setActive fun r => if r.eof_reached then r else { r with offset := s.seekpos }

/-- Switch from reading to writing. -/
def startWriting (s : Tuplestorestate α) : Tuplestorestate α :=
  { s.saveActive with seekpos := s.writepos, status := .writefile }

/-- `tuplestore_puttuple_common`. -/
def puttupleCommon (s : Tuplestorestate α) (tuple : Nat) : Except Fault (Tuplestorestate α) :=
  let s := { s with tuples := s.tuples + 1 }
  match s.status with
  | .inmem => stash env (s.leaveBehind fun r => { r with current := s.memtupcount }) tuple
  | .writefile => writetup env (s.leaveBehind fun r => { r with offset := s.seekpos }) tuple
  | .readfile =>
    writetup env (s.startWriting.leaveBehind fun r => { r with offset := s.writepos }) tuple

/-- `COPYTUP`: the tuple in a chunk of its own, with `USEMEM`. -/
def copytup (s : Tuplestorestate α) (t : α) : Nat × Tuplestorestate α :=
  let (p, s) := palloc env s (env.tupleSize t) [t] true
  (p, { s with availMem := s.availMem - chunkSpace env s p })

/-- `tuplestore_puttuple`, `tuplestore_puttupleslot` and `tuplestore_putvalues` differ in what
they copy from. -/
def puttuple (s : Tuplestorestate α) (t : α) : Except Fault (Tuplestorestate α) :=
  puttupleCommon env (copytup env s t).2 (copytup env s t).1

def copyTuples : List Nat → Tuplestorestate α → Except Fault (Tuplestorestate α)
  | [], s => .ok s
  | p :: ps, s =>
    match s.heap.load p with
    | none => .error .badRead
    | some t => (puttuple env s t).bind (copyTuples ps)

def blockPointers (block ntuples tuplen : Nat) : List Nat :=
  (List.range ntuples).map fun i => block + i * tuplen

/-- Copy the tuples of a block, which is then not needed any more. -/
def copyBlock (s : Tuplestorestate α) (block ntuples tuplen : Nat) (owned : Bool) :
    Except Fault (Tuplestorestate α) :=
  (copyTuples env (blockPointers block ntuples tuplen) s).bind fun s =>
    if owned then s.pfree block else .ok (s.letGo block)

/-- `blocksize`: a block of the caller's is not counted. -/
def blockSpace (s : Tuplestorestate α) (block : Nat) (owned : Bool) : Nat :=
  if owned then chunkSpace env s block else 0

/-- Point to the tuples of a block where they are. The array grows to the size that is needed. -/
def takeBlock (s : Tuplestorestate α) (block ntuples tuplen : Nat) (owned : Bool) :
    Tuplestorestate α :=
  let memtupsize :=
    if s.memtupsize ≤ s.memtupcount + ntuples then s.memtupcount + ntuples + 1 else s.memtupsize
  { (s.leaveBehind fun r => { r with current := s.memtupcount }) with
    availMem := s.availMem + (8 * s.memtupsize + env.overhead : Nat) -
      (8 * memtupsize + env.overhead : Nat) - blockSpace env s block owned
    memtuples := s.memtuples ++ blockPointers block ntuples tuplen
    memtupsize := memtupsize
    tuples := s.tuples + ntuples
    block := block
    blockend := block + ntuples * tuplen
    ownblock := owned }

/-- `tuplestore_putblock`: adopt the block, or copy its tuples. -/
def putblock (s : Tuplestorestate α) (block ntuples tuplen : Nat) (owned : Bool) :
    Except Fault (Tuplestorestate α) :=
  if s.status ≠ .inmem ∨ s.block ≠ 0 ∨ PG_INT32_MAX - s.memtupcount ≤ ntuples ∨
      s.availMem < (blockSpace env s block owned + ntuples * 8 : Nat) then
    copyBlock env s block ntuples tuplen owned
  else .ok (takeBlock env s block ntuples tuplen owned)

/-! ## Reading -/

/-- The tuple behind a pointer of the array. -/
def deref (s : Tuplestorestate α) (i : Nat) : Except Fault (Option α) :=
  match s.memtuples[i]?.bind s.heap.load with
  | some t => .ok (some t)
  | none => .error .badRead

/-- No more tuples in the backward direction, which must not be for having been trimmed. -/
def atStart (s : Tuplestorestate α) : Except Fault (Tuplestorestate α × Option α) :=
  if s.truncated then .error .assertFailed else .ok (s, none)

/-- `tuplestore_gettuple` from memory. -/
def gettupleInmem (s : Tuplestorestate α) (forward : Bool) :
    Except Fault (Tuplestorestate α × Option α) :=
  if forward then
    if s.active.eof_reached then .ok (s, none)
    else if s.active.current < s.memtupcount then
      (s.deref s.active.current).map
        (s.setActive fun r => { r with current := r.current + 1 }, ·)
    else .ok (s.setActive fun r => { r with eof_reached := true }, none)
  else if s.active.eof_reached = false ∧ s.active.current ≤ s.memtupdeleted then s.atStart
  else
    let s := s.setActive fun r => r.stepBack s.memtupcount
    if s.active.current ≤ s.memtupdeleted then s.atStart
    else (s.deref (s.active.current - 1)).map (s, ·)

/-- `READTUP`: the tuple is copied into a chunk of the caller's. -/
def readtup (s : Tuplestorestate α) (t : α) : Tuplestorestate α :=
  let size := env.tupleSize t
  { s with
    availMem := s.availMem - env.space ⟨env.place s.allocs s.heap size, size, [t], false⟩
    allocs := s.allocs + 1 }

/-- Read the tuple that ends at the position. -/
def readPrevious (s : Tuplestorestate α) : Except Fault (Tuplestorestate α × Option α) :=
  match s.myfile[s.seekpos - 1]? with
  | some t => .ok (readtup env s t, some t)
  | none => .error .badRead

/-- `tuplestore_gettuple` from the file. -/
def gettupleFile (s : Tuplestorestate α) (forward : Bool) :
    Except Fault (Tuplestorestate α × Option α) :=
  if forward then
    match s.myfile[s.seekpos]? with
    | some t => .ok (readtup env { s with seekpos := s.seekpos + 1 } t, some t)
    | none => .ok (s.setActive fun r => { r with eof_reached := true }, none)
  else if s.backward = false then .error .noLengthWord
  else if s.seekpos = 0 then (s.setActive fun r => { r with eof_reached := false }).atStart
  else if s.active.eof_reached then
    readPrevious env (s.setActive fun r => { r with eof_reached := false })
  else if s.seekpos = 1 then { s with seekpos := 0 }.atStart
  else readPrevious env { s with seekpos := s.seekpos - 1 }

/-- Switch from writing to reading. -/
def startReading (s : Tuplestorestate α) : Tuplestorestate α :=
  { s with
    writepos := s.seekpos
    seekpos := if s.active.eof_reached then s.seekpos else s.active.offset
    status := .readfile }

/-- `tuplestore_gettuple`. -/
def gettuple (s : Tuplestorestate α) (forward : Bool) :
    Except Fault (Tuplestorestate α × Option α) :=
  if forward = false ∧ s.active.eflags.backward = false then .error .assertFailed
  else
    match s.status with
    | .inmem => s.gettupleInmem forward
    | .writefile =>
      if s.active.eof_reached ∧ forward then .ok (s, none)
      else gettupleFile env s.startReading forward
    | .readfile => gettupleFile env s forward

def skipLoop (forward : Bool) : Nat → Tuplestorestate α → Except Fault (Tuplestorestate α × Bool)
  | 0, s => .ok (s, true)
  | n + 1, s => do
    let (s, tuple) ← gettuple env s forward
    if tuple.isNone then return (s, false)
    skipLoop forward n s

/-- `tuplestore_skiptuples` in memory moves the pointer at once. -/
def skipInmem (s : Tuplestorestate α) (ntuples : Nat) (forward : Bool) :
    Except Fault (Tuplestorestate α × Bool) :=
  if forward then
    if s.active.eof_reached then .ok (s, false)
    else if ntuples ≤ s.memtupcount - s.active.current then
      .ok (s.setActive fun r => { r with current := r.current + ntuples }, true)
    else
      .ok (s.setActive fun r => { r with current := s.memtupcount, eof_reached := true }, false)
  else
    -- leaving end of file is the first step
    let current := if s.active.eof_reached then s.memtupcount else s.active.current
    let ntuples := if s.active.eof_reached then ntuples - 1 else ntuples
    if ntuples < current - s.memtupdeleted then
      .ok (s.setActive fun r => { r with current := current - ntuples, eof_reached := false }, true)
    else if s.truncated then .error .assertFailed
    else
      .ok (s.setActive fun r => { r with current := s.memtupdeleted, eof_reached := false }, false)

/-- `tuplestore_skiptuples`. -/
def skiptuples (s : Tuplestorestate α) (ntuples : Nat) (forward : Bool) :
    Except Fault (Tuplestorestate α × Bool) :=
  if forward = false ∧ s.active.eflags.backward = false then .error .assertFailed
  else if ntuples = 0 then .ok (s, true)
  else
    match s.status with
    | .inmem => s.skipInmem ntuples forward
    | .writefile | .readfile => skipLoop env forward ntuples s

/-! ## Read pointers -/

/-- `tuplestore_select_read_pointer`. -/
def selectReadPointer (s : Tuplestorestate α) (ptr : Nat) : Except Fault (Tuplestorestate α) :=
  if s.readptrcount ≤ ptr then .error .assertFailed
  else if ptr = s.activeptr then .ok s
  else if s.status = .readfile then
    let s := s.saveActive
    .ok { s with
      seekpos := if (s.readptrs ptr).eof_reached then s.writepos else (s.readptrs ptr).offset
      activeptr := ptr }
  else .ok { s with activeptr := ptr }

/-- `tuplestore_rescan`. -/
def rescan (s : Tuplestorestate α) : Except Fault (Tuplestorestate α) :=
  if s.active.eflags.rewind = false ∨ s.truncated then .error .assertFailed
  else if s.status = .inmem then
    .ok (s.setActive fun r => { r with eof_reached := false, current := 0 })
  else if s.status = .writefile then
    .ok (s.setActive fun r => { r with eof_reached := false, offset := 0 })
  else .ok { s.setActive fun r => { r with eof_reached := false } with seekpos := 0 }

/-- Copy all of a read pointer; the overall flags may be others then. -/
def assignPointer (s : Tuplestorestate α) (destptr : Nat) (sptr : TSReadPointer) :
    Tuplestorestate α :=
  let t := { s with readptrs := Function.update s.readptrs destptr sptr }
  { t with eflags := if (s.readptrs destptr).eflags = sptr.eflags then s.eflags else t.allFlags }

/-- While reading from the file the position of the active read pointer is not in its
variables: assigning to it requires a seek, assigning from it a tell. -/
def copyReadPointer (s : Tuplestorestate α) (srcptr destptr : Nat) :
    Except Fault (Tuplestorestate α) :=
  if s.readptrcount ≤ srcptr ∨ s.readptrcount ≤ destptr then .error .assertFailed
  else if srcptr = destptr then .ok s
  else
    let sptr := s.readptrs srcptr
    if s.status = .readfile ∧ destptr = s.activeptr then
      .ok { s.assignPointer destptr sptr with
        seekpos := if sptr.eof_reached then s.writepos else sptr.offset }
    else if s.status = .readfile ∧ srcptr = s.activeptr ∧ sptr.eof_reached = false then
      .ok (s.assignPointer destptr { sptr with offset := s.seekpos })
    else .ok (s.assignPointer destptr sptr)

/-! ## Removing -/

def oldest (s : Tuplestorestate α) : Nat :=
  furthestBack s.readptrcount (fun i => (s.readptrs i).eof_reached)
    (fun i => (s.readptrs i).current) s.memtupcount

/-- Slide the array down and readjust pointers. -/
def slide (s : Tuplestorestate α) (nremove : Nat) : Tuplestorestate α :=
  { s with
    memtuples := s.memtuples.drop nremove
    memtupdeleted := 0
    readptrs := fun i =>
      if (s.readptrs i).eof_reached then s.readptrs i
      else { s.readptrs i with current := (s.readptrs i).current - nremove } }

/-- Release the first tuples of the array; their slots stay, with `NULL`. -/
def releaseFirst (s : Tuplestorestate α) (nremove : Nat) : Except Fault (Tuplestorestate α) :=
  (freeTuples env ((s.memtuples.take nremove).drop s.memtupdeleted) s).map fun s => { s with
    memtuples := List.replicate nremove 0 ++ s.memtuples.drop nremove
    memtupdeleted := nremove
    truncated := true }

/-- `tuplestore_trim`: all but one tuple behind the oldest pointer go. -/
def trim (s : Tuplestorestate α) : Except Fault (Tuplestorestate α) :=
  if s.eflags.rewind ∨ s.status ≠ .inmem then .ok s
  else
    let nremove := s.oldest - 1
    if nremove = 0 then .ok s
    else if nremove < s.memtupdeleted ∨ s.memtupcount < nremove then .error .assertFailed
    else
      (releaseFirst env s nremove).map fun s =>
        if nremove < s.memtupcount / 8 then s else s.slide nremove

/-- `tuplestore_clear`. -/
def clear (s : Tuplestorestate α) : Except Fault (Tuplestorestate α) :=
  (freeTuples env (s.memtuples.drop s.memtupdeleted) s).bind fun s =>
    (freeBlock env s).map fun s => { s with
      myfile := []
      seekpos := 0
      status := .inmem
      truncated := false
      memtuples := []
      memtupdeleted := 0
      tuples := 0
      readptrs := fun i => { s.readptrs i with eof_reached := false, current := 0 } }

/-- `tuplestore_end`: what is left in the heap. -/
def finish (s : Tuplestorestate α) : Except Fault (Heap α) :=
  (freeTuples env (s.memtuples.drop s.memtupdeleted) s).bind fun s =>
    (if s.block ≠ 0 ∧ s.ownblock then s.pfree s.block else .ok s).map heap

end Tuplestorestate

/-! ## Histories -/

/-- The calls a client makes. Those for skipping and for asking are reads without a tuple. -/
inductive Call (α : Type)
  | puttuple (t : α)
  | putblock (ts : List α) (tuplen : Nat) (owned : Bool)
  | gettuple (forward : Bool)
  | skiptuples (n : Nat) (forward : Bool)
  | selectReadPointer (ptr : Nat)
  | rescan
  | copyReadPointer (srcptr destptr : Nat)
  | trim
  | clear
  | ateof
  | tupleCount
deriving DecidableEq, Repr

inductive Reply (α : Type)
  | tuple (t : Option α)
  | flag (b : Bool)
  | count (n : Nat)
deriving DecidableEq, Repr

open Tuplestorestate

variable {α : Type} (env : Env α)

/-- The caller has the block in a chunk of its own before it hands it over. -/
def handOver (s : Tuplestorestate α) (ts : List α) (tuplen : Nat) (owned : Bool) :
    Except Fault (Tuplestorestate α) :=
  Tuplestorestate.putblock env (palloc env s tuplen ts owned).2 (palloc env s tuplen ts owned).1
    ts.length tuplen owned

def call (s : Tuplestorestate α) :
    Call α → Except Fault (Tuplestorestate α × List (Reply α))
  | .puttuple t => (puttuple env s t).map (·, [])
  | .putblock ts tuplen owned => (handOver env s ts tuplen owned).map (·, [])
  | .gettuple forward => (gettuple env s forward).map fun r => (r.1, [.tuple r.2])
  | .skiptuples n forward => (skiptuples env s n forward).map fun r => (r.1, [.flag r.2])
  | .selectReadPointer ptr => (selectReadPointer s ptr).map (·, [])
  | .rescan => (rescan s).map (·, [])
  | .copyReadPointer srcptr destptr => (copyReadPointer s srcptr destptr).map (·, [])
  | .trim => (trim env s).map (·, [])
  | .clear => (clear env s).map (·, [])
  | .ateof => .ok (s, [.flag s.active.eof_reached])
  | .tupleCount => .ok (s, [.count s.tuples])

def calls : Tuplestorestate α → List (Call α) → Except Fault (Tuplestorestate α × List (Reply α))
  | s, [] => .ok (s, [])
  | s, c :: cs => do
    let (s, reply) ← call env s c
    let (s, replies) ← calls s cs
    return (s, reply ++ replies)

/-- The life of a store: what the calls gave and what is left in memory at the end. -/
def history (first : ExecFlags) (others : List ExecFlags) (cs : List (Call α)) :
    Except Fault (List (Reply α) × Heap α) := do
  let s ← setUp env first others
  let (s, replies) ← calls env s cs
  let heap ← finish env s
  return (replies, heap)

/-- Every block put as so many single tuples. -/
def oneByOne (cs : List (Call α)) : List (Call α) :=
  cs.flatMap fun
    | .putblock ts _ _ => ts.map .puttuple
    | c => [c]

end Tuplestore

end HolLambdas
