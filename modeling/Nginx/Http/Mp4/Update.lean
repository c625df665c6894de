import Nginx.Http.Mp4

namespace Nginx.Mp4

open ByteMemory

-- The turns of `while (entry < end)` over entries of one size
def turns (entry stop entrySize : Nat) : Nat := (stop - entry + entrySize - 1) / entrySize

-- The size of an atom of which a part of the table is left
def atomSize (head : Nat) (b : Buf) : Nat := (head + b.last + 2 ^ 64 - b.pos) % 2 ^ 64

-- The new size of an atom, and the new number of its entries
def setTable (mem : Memory) (atom : Buf) (size entries : Nat) : Memory :=
  set32 (set32 mem atom.pos size) (atom.pos + 12) entries

def Trak.dataPos (k : TrakAtom) (pos : Nat) (t : Trak) : Trak := t.set k pos (t.buf k).last

-- Where the start time is: the entry, the entries from it on, the first sample, and the samples left of the entry
def sttsLoop (mem : Memory) : Nat → Nat → Nat → Nat → Nat → Option (Nat × Nat × Nat × Nat)
  | 0, _, _, _, _ => none
  | n + 1, entry, entries, startTime, startSample =>
    let count := get32 mem entry
    let duration := get32 mem (entry + 4)
    if startTime < count * duration then
      some (entry, entries, startSample + startTime / duration, count - startTime / duration)
    -- the product is of 32 bits
    else sttsLoop mem n (entry + 8) (entries - 1) (startTime - count * duration % 2 ^ 32) (startSample + count)

def updateSttsAtom (start : Nat) (mem : Memory) (t : Trak) : Option (Memory × Trak) :=
  if ¬t.out .sttsData then none
  else
    let data := t.buf .sttsData
    let startTime := start * t.timescale % 2 ^ 64 / 1000
    match sttsLoop mem (turns data.pos data.last 8) data.pos t.timeToSampleEntries startTime 0 with
    | none => none
    | some (entry, entries, startSample, count) =>
      let mem := set32 mem entry count
      let t := { t with startSample := startSample }.dataPos .sttsData entry
      let size := atomSize 16 (t.buf .sttsData)
      some (setTable mem (t.buf .stts) size entries, { t with size := t.size + size })

def stssLoop (mem : Memory) (startSample : Nat) : Nat → Nat → Nat → Option (Nat × Nat)
  | 0, _, _ => none
  | n + 1, entry, entries =>
    if startSample ≤ get32 mem entry then some (entry, entries)
    else stssLoop mem startSample n (entry + 4) (entries - 1)

-- Subtracts from the first 32-bit value of each entry.
def subtractLoop (entrySize d : Nat) : Nat → Nat → Memory → Memory
  | 0, _, mem => mem
  | n + 1, entry, mem =>
    subtractLoop entrySize d n (entry + entrySize) (set32 mem entry ((get32 mem entry + 2 ^ 32 - d % 2 ^ 32) % 2 ^ 32))

def updateStssAtom (mem : Memory) (t : Trak) : Option (Memory × Trak) :=
  if ¬t.out .stssData then some (mem, t)
  else
    let data := t.buf .stssData
    -- sync samples starts from 1
    let startSample := (t.startSample + 1) % 2 ^ 32
    match stssLoop mem startSample (turns data.pos data.last 4) data.pos t.syncSamplesEntries with
    | none => none
    | some (entry, entries) =>
      let mem := subtractLoop 4 t.startSample (turns entry data.last 4) entry mem
      let t := t.dataPos .stssData entry
      let size := atomSize 16 (t.buf .stssData)
      some (setTable mem (t.buf .stss) size entries, { t with size := t.size + size })

def cttsLoop (mem : Memory) : Nat → Nat → Nat → Nat → Option (Nat × Nat × Nat)
  | 0, _, _, _ => none
  | n + 1, entry, entries, startSample =>
    let count := get32 mem entry
    if startSample ≤ count then some (entry, entries, count - (startSample - 1))
    else cttsLoop mem n (entry + 8) (entries - 1) (startSample - count)

def updateCttsAtom (mem : Memory) (t : Trak) : Memory × Trak :=
  if ¬t.out .cttsData then (mem, t)
  else
    let data := t.buf .cttsData
    let startSample := (t.startSample + 1) % 2 ^ 32
    match cttsLoop mem (turns data.pos data.last 8) data.pos t.compositionOffsetEntries startSample with
    | none => (mem, { t with out := Function.update (Function.update t.out .ctts false) .cttsData false })
    | some (entry, entries, count) =>
      let mem := set32 mem entry count
      let t := t.dataPos .cttsData entry
      let size := atomSize 16 (t.buf .cttsData)
      (setTable mem (t.buf .ctts) size entries, { t with size := t.size + size })

-- What the loop of stsc has come to. entry is the one behind the run of chunks, entries is counted from it.
structure StscRun where
  entry : Nat
  entries : Nat
  startSample : Nat
  chunk : Nat
  samples : Nat
  id : Nat

-- The samples of a run of chunks, of 32 bits
def runSamples (chunk nextChunk samples : Nat) : Nat := (nextChunk + 2 ^ 32 - chunk) * samples % 2 ^ 32

-- Whether the run has been found before the end of the table
def stscLoop (mem : Memory) : Nat → StscRun → Bool × StscRun
  | 0, r => (false, r)
  | n + 1, r =>
    let nextChunk := get32 mem r.entry
    let samples := runSamples r.chunk nextChunk r.samples
    if r.startSample ≤ samples then (true, r)
    else
      stscLoop mem n
        { entry := r.entry + 12, entries := r.entries - 1, startSample := r.startSample - samples
          chunk := nextChunk, samples := get32 mem (r.entry + 4), id := get32 mem (r.entry + 8) }

def updateStscAtom (chunkEntry : Nat) (mem : Memory) (t : Trak) : Option (Memory × Trak) :=
  if ¬t.out .stscData ∨ t.sampleToChunkEntries = 0 then none
  else
    let data := t.buf .stscData
    let (found, r) :=
      stscLoop mem (turns (data.pos + 12) data.last 12)
        { entry := data.pos + 12, entries := t.sampleToChunkEntries - 1, startSample := t.startSample % 2 ^ 32
          chunk := get32 mem data.pos, samples := get32 mem (data.pos + 4), id := get32 mem (data.pos + 8) }
    if ¬found ∧ runSamples r.chunk t.chunks r.samples < r.startSample then none
    else if r.samples = 0 then none
    else
      let entry := r.entry - 12
      let t :=
        { t with
          startChunk := (r.chunk + 2 ^ 32 - 1) % 2 ^ 32 + r.startSample / r.samples
          chunkSamples := r.startSample % r.samples }.dataPos .stscData entry
      let size := atomSize 16 (t.buf .stscData)
      let mem := set32 mem entry 1
      let (mem, t, size) :=
        if t.chunkSamples ≠ 0 then
          let mem := set32 mem chunkEntry 1
          let mem := set32 mem (chunkEntry + 4) (r.samples - t.chunkSamples)
          let mem := set32 mem (chunkEntry + 8) r.id
          (set32 mem entry 2, t.put .stscChunk chunkEntry (chunkEntry + 12), size + 12)
        else (mem, t, size)
      let mem := subtractLoop 12 t.startChunk (turns (entry + 12) data.last 12) (entry + 12) mem
      some (setTable mem (t.buf .stsc) size (r.entries + 1), { t with size := t.size + size })

def sumSizes (mem : Memory) : Nat → Nat → Nat
  | 0, _ => 0
  | n + 1, pos => get32 mem pos + sumSizes mem n (pos + 4)

def updateStszAtom (mem : Memory) (t : Trak) : Option (Memory × Trak) :=
  if ¬t.out .stszData then some (mem, t)
  else if t.sampleSizesEntries < t.startSample then none
  else
    let pos := (t.buf .stszData).pos + t.startSample * 4
    let t :=
      { t with chunkSamplesSize := t.chunkSamplesSize + sumSizes mem t.chunkSamples (pos - t.chunkSamples * 4) }.dataPos
        .stszData pos
    let size := atomSize 20 (t.buf .stszData)
    let atom := t.buf .stsz
    some (set32 (set32 mem atom.pos size) (atom.pos + 16) (t.sampleSizesEntries - t.startSample),
      { t with size := t.size + size })

-- stco and co64, with the size of an offset and the way it is read and written
def updateOffsets (atom data : TrakAtom) (entrySize : Nat) (get : Memory → Nat → Nat)
    (set : Memory → Nat → Nat → Memory) (mem : Memory) (t : Trak) : Option (Memory × Trak) :=
  if ¬t.out data ∨ t.chunks < t.startChunk then none
  else
    let pos := (t.buf data).pos + t.startChunk * entrySize
    let t := { t with startOffset := toInt64 (get mem pos + t.chunkSamplesSize) }.dataPos data pos
    let mem := set mem pos (toSize t.startOffset)
    let size := atomSize 16 (t.buf data)
    some (setTable mem (t.buf atom) size (t.chunks - t.startChunk), { t with size := (t.size + size) % 2 ^ 64 })

def updateStcoAtom : Memory → Trak → Option (Memory × Trak) := updateOffsets .stco .stcoData 4 get32 set32

def updateCo64Atom : Memory → Trak → Option (Memory × Trak) := updateOffsets .co64 .co64Data 8 get64 set64

-- The new size of an atom that holds others, where more says what has been counted of them meanwhile
def updateContainer (k : TrakAtom) (more : Trak → Nat) (mem : Memory) (t : Trak) : Memory × Trak :=
  let t := { t with size := t.size + 8 + more t }
  (set32 mem (t.buf k).pos t.size, t)

def updateStblAtom : Memory → Trak → Memory × Trak := updateContainer .stbl fun _ => 0

def updateMinfAtom : Memory → Trak → Memory × Trak :=
  updateContainer .minf fun t => t.vmhdSize + t.smhdSize + t.dinfSize

def updateMdiaAtom : Memory → Trak → Memory × Trak := updateContainer .mdia fun _ => 0

def updateTrakAtom : Memory → Trak → Memory × Trak := updateContainer .trak fun _ => 0

-- One turn of the first loop over the traks in ngx_http_mp4_process
def updateTrak (start chunkEntry : Nat) (mem : Memory) (t : Trak) : Option (Memory × Trak) := do
  let (mem, t) ← updateSttsAtom start mem t
  let (mem, t) ← updateStssAtom mem t
  let (mem, t) := updateCttsAtom mem t
  let (mem, t) ← updateStscAtom chunkEntry mem t
  let (mem, t) ← updateStszAtom mem t
  let (mem, t) ← if t.out .co64Data then updateCo64Atom mem t else updateStcoAtom mem t
  let (mem, t) := updateStblAtom mem t
  let (mem, t) := updateMinfAtom mem t
  let (mem, t) := updateMdiaAtom mem { t with size := t.size + t.mdhdSize + t.hdlrSize }
  some (updateTrakAtom mem { t with size := t.size + t.tkhdSize })

def updateTraks (start : Nat) (chunkEntry : Nat → Nat) : Nat → Memory → List Trak → Option (Memory × List Trak)
  | _, mem, [] => some (mem, [])
  | i, mem, t :: ts => do
    let (mem, t) ← updateTrak start (chunkEntry i) mem t
    let (mem, ts) ← updateTraks start chunkEntry (i + 1) mem ts
    some (mem, t :: ts)

-- The header of the mdat atom: its address is the one in ngx_http_mp4_file_t.
def updateMdatAtom (header : Nat) (startOffset : Int) (mem : Memory) (file : FileBuf) : Memory × Nat :=
  let atomDataSize := toSize (file.fileLast - startOffset)
  let (mem, size, headerSize) :=
    if 2 ^ 32 - 1 < atomDataSize then (set64 mem (header + 8) (ptr 16 atomDataSize), 1, 16)
    else (mem, 8 + atomDataSize, 8)
  (setAtomName (set32 mem header size) header (ngxString "mdat"), headerSize)

def adjustLoop (entrySize : Nat) (get : Memory → Nat → Nat) (set : Memory → Nat → Nat → Memory) (adjustment : Int) :
    Nat → Nat → Memory → Memory
  | 0, _, mem => mem
  | n + 1, entry, mem =>
    adjustLoop entrySize get set adjustment n (entry + entrySize) (set mem entry (toSize (get mem entry + adjustment)))

-- The adjustment of stco is of 32 bits.
def adjustStcoAtom (adjustment : Int) (mem : Memory) (t : Trak) : Memory :=
  let data := t.buf .stcoData
  adjustLoop 4 get32 set32 (toInt32 adjustment) (turns data.pos data.last 4) data.pos mem

def adjustCo64Atom (adjustment : Int) (mem : Memory) (t : Trak) : Memory :=
  let data := t.buf .co64Data
  adjustLoop 8 get64 set64 adjustment (turns data.pos data.last 8) data.pos mem

def adjustTrak (adjustment : Int) (mem : Memory) (t : Trak) : Memory :=
  if t.out .co64Data then adjustCo64Atom adjustment mem t else adjustStcoAtom adjustment mem t

variable (env : Env)

-- ngx_http_mp4_process behind ngx_http_mp4_read_atom
def finish (s : St) : Rc × St :=
  match s.mdatData with
  | none => (.error, s)
  | some file =>
    if s.trak = [] then (.error, s)
    else
      match updateTraks s.start env.stscChunkEntry 0 s.mem s.trak with
      | none => (.error, s)
      | some (mem, traks) =>
        let startOffset := (traks.map Trak.startOffset).foldl min (s.fileEnd : Int)
        let mvhdSize := (s.mvhdAtom.map fun b => b.last - b.pos).getD 0
        let moovSize := mvhdSize + (traks.map Trak.size).sum + 8
        let mem := setAtomName (set32 mem env.moovAtomHeader moovSize) env.moovAtomHeader (ngxString "moov")
        let (mem, headerSize) := updateMdatAtom env.mdatAtomHeader startOffset mem file
        let adjustment := toInt64 (s.ftypSize + moovSize + headerSize - startOffset)
        let mdat : Buf := ⟨env.mdatAtomHeader, env.mdatAtomHeader + headerSize⟩
        (.ok,
          { s with
            mem := traks.foldl (adjustTrak adjustment) mem
            trak := traks
            moovSize := moovSize
            contentLength := s.contentLength + moovSize + headerSize + (file.fileLast - startOffset)
            mdatAtom := some mdat
            mdatData := some { file with filePos := startOffset }
            out := s.ftypAtom.toList ++ s.moovAtom.toList ++ s.mvhdAtom.toList ++ traks.flatMap Trak.bufs ++ [mdat] })

-- What ngx_http_mp4_handler has set of the file, with the size of the buffer
def opened (conf : Conf) (start : Nat) (mem : Memory) : St :=
  { bufferSize := conf.bufferSize, fileEnd := env.size, start := start, mem := mem }

def process (conf : Conf) (fuel start : Nat) (mem : Memory) : Option Rc × St :=
  match readAtom env conf fuel .top env.size (opened env conf start mem) with
  | (some .ok, s) => (some (finish env s).1, (finish env s).2)
  | r => r

end Nginx.Mp4
