import Nginx.Core.Bytes
import Nginx.Library.ByteMemory

namespace Nginx.Mp4

open ByteMemory

inductive Rc where
  | ok
  | error
  | declined
deriving DecidableEq

-- Of ngx_buf_t: the range of the memory.
structure Buf where
  pos : Nat
  last : Nat
deriving DecidableEq

-- The indices of trak->out
inductive TrakAtom where
  | trak | tkhd | mdia | mdhd | hdlr | minf | vmhd | smhd | dinf | stbl | stsd
  | stts | sttsData | stss | stssData | ctts | cttsData | stsc | stscChunk | stscData
  | stsz | stszData | stco | stcoData | co64 | co64Data
deriving DecidableEq

def TrakAtom.all : List TrakAtom :=
  [.trak, .tkhd, .mdia, .mdhd, .hdlr, .minf, .vmhd, .smhd, .dinf, .stbl, .stsd,
    .stts, .sttsData, .stss, .stssData, .ctts, .cttsData, .stsc, .stscChunk, .stscData,
    .stsz, .stszData, .stco, .stcoData, .co64, .co64Data]

-- ngx_http_mp4_trak_t. out says which of out[..].buf are set. They point to the buf of the same name.
structure Trak where
  timescale : Nat := 0
  timeToSampleEntries : Nat := 0
  sampleToChunkEntries : Nat := 0
  syncSamplesEntries : Nat := 0
  compositionOffsetEntries : Nat := 0
  sampleSizesEntries : Nat := 0
  chunks : Nat := 0
  startSample : Nat := 0
  startChunk : Nat := 0
  chunkSamples : Nat := 0
  chunkSamplesSize : Nat := 0
  startOffset : Int := 0
  tkhdSize : Nat := 0
  mdhdSize : Nat := 0
  hdlrSize : Nat := 0
  vmhdSize : Nat := 0
  smhdSize : Nat := 0
  dinfSize : Nat := 0
  size : Nat := 0
  out : TrakAtom → Bool := fun _ => false
  buf : TrakAtom → Buf := fun _ => ⟨0, 0⟩

def Trak.set (k : TrakAtom) (pos last : Nat) (t : Trak) : Trak := { t with buf := Function.update t.buf k ⟨pos, last⟩ }

def Trak.link (k : TrakAtom) (t : Trak) : Trak := { t with out := Function.update t.out k true }

def Trak.put (k : TrakAtom) (pos last : Nat) (t : Trak) : Trak := (t.set k pos last).link k

-- The bufs that the out array points to
def Trak.bufs (t : Trak) : List Buf := (TrakAtom.all.filter t.out).map t.buf

-- Of mdat_data_buf: the range of the file.
structure FileBuf where
  filePos : Int
  fileLast : Int
deriving DecidableEq

-- ngx_http_mp4_file_t. An atom's buf is there when the pointer in its chain link is set, buffer is NULL without a
-- buffer, and trak holds the nelts elements of the array.
structure File where
  buffer : Option Nat := none
  bufferStart : Nat := 0
  bufferPos : Nat := 0
  bufferEnd : Nat := 0
  bufferSize : Nat
  offset : Nat := 0
  fileEnd : Nat
  contentLength : Int := 0
  start : Nat
  timescale : Nat := 0
  trak : List Trak := []
  ftypSize : Nat := 0
  moovSize : Nat := 0
  out : List Buf := []
  ftypAtom : Option Buf := none
  moovAtom : Option Buf := none
  mvhdAtom : Option Buf := none
  mdatAtom : Option Buf := none
  mdatData : Option FileBuf := none

-- The bufs that point into the mp4 buffer
def File.recorded (f : File) : List Buf := f.mvhdAtom.toList ++ f.trak.flatMap Trak.bufs

-- ngx_http_mp4_atoms, ngx_http_mp4_moov_atoms and so on
inductive Table where
  | top | moov | trak | mdia | minf | stbl
deriving DecidableEq

inductive Handler where
  | ftyp | moov | mdat | mvhd | trak | cmov | tkhd | mdia | mdhd | hdlr | minf
  | vmhd | smhd | dinf | stbl | stsd | stts | stss | ctts | stsc | stsz | stco | co64
deriving DecidableEq

def Table.atoms : Table → List (Bytes × Handler)
  | .top => [(ngxString "ftyp", .ftyp), (ngxString "moov", .moov), (ngxString "mdat", .mdat)]
  | .moov => [(ngxString "mvhd", .mvhd), (ngxString "trak", .trak), (ngxString "cmov", .cmov)]
  | .trak => [(ngxString "tkhd", .tkhd), (ngxString "mdia", .mdia)]
  | .mdia => [(ngxString "mdhd", .mdhd), (ngxString "hdlr", .hdlr), (ngxString "minf", .minf)]
  | .minf => [(ngxString "vmhd", .vmhd), (ngxString "smhd", .smhd), (ngxString "dinf", .dinf), (ngxString "stbl", .stbl)]
  | .stbl =>
    [(ngxString "stsd", .stsd), (ngxString "stts", .stts), (ngxString "stss", .stss), (ngxString "ctts", .ctts),
      (ngxString "stsc", .stsc), (ngxString "stsz", .stsz), (ngxString "stco", .stco), (ngxString "co64", .co64)]

def Table.find (t : Table) (name : Bytes) : Option Handler := (t.atoms.find? fun a => a.1 = name).map (·.2)

-- What a run does to the file and the buffer, with the state before: a 64-bit size, a call of ngx_http_mp4_read by
-- ngx_http_mp4_read_atom with a table, bytes of the file that are put into the buffer, and the call of a handler.
inductive Event where
  | size64 (n : Nat)
  | read (table : Table) (mp4 : File) (size : Nat)
  | fill (mp4 : File) (dst offset n : Nat)
  | call (table : Table) (handler : Handler) (mp4 : File) (atomDataSize : Nat)

structure St extends File where
  mem : Memory
  allocs : Nat := 0
  trace : List Event := []

def St.log (s : St) (e : Event) : St := { s with trace := e :: s.trace }

-- The file, what ngx_read_file answers to an offset and a size, what ngx_palloc answers to its calls, and where the
-- parts of ngx_http_mp4_file_t and of its traks are that bufs point to.
structure Env where
  size : Nat
  size_lt : size < 2 ^ 63
  pread : Nat → Nat → Option Bytes
  palloc : Nat → (n : Nat) → Option { p : Nat // p + n < 2 ^ 63 }
  moovAtomHeader : Nat
  mdatAtomHeader : Nat
  stscChunkEntry : Nat → Nat

structure Conf where
  bufferSize : Nat
  maxBufferSize : Nat

-- Pointers, and sizes that are read from the file, are 64-bit words.
def ptr (p n : Nat) : Nat := (p + n) % 2 ^ 64

-- ngx_mp4_get_32value and the like
def get32 (mem : Memory) (p : Nat) : Nat := decode (load mem p 4).reverse

def get64 (mem : Memory) (p : Nat) : Nat := decode (load mem p 8).reverse

def set32 (mem : Memory) (p n : Nat) : Memory := store mem p (encode 4 n).reverse

def set64 (mem : Memory) (p n : Nat) : Memory := store mem p (encode 8 n).reverse

def setAtomName (mem : Memory) (p : Nat) (name : Bytes) : Memory := store mem (p + 4) name

-- ngx_mp4_atom_next
def St.atomNext (s : St) (n : Nat) : St := { s with bufferPos := ptr s.bufferPos n, offset := ptr s.offset n }

-- ngx_mp4_last_trak
def St.lastTrak (s : St) (f : Trak → Trak) : St := { s with trak := s.trak.modify (s.trak.length - 1) f }

variable (env : Env) (conf : Conf)

-- The part of ngx_http_mp4_read behind the allocation
def St.fill (s : St) : Rc × St :=
  match env.pread s.offset s.bufferSize with
  | none => (.error, s)
  | some bs =>
    let s' := { s with mem := store s.mem s.bufferStart bs }.log (.fill s.toFile s.bufferStart s.offset bs.length)
    if bs.length ≠ s.bufferSize then (.error, s')
    else (.ok, { s' with bufferPos := s.bufferStart, bufferEnd := s.bufferStart + s.bufferSize })

-- The part behind the comparison with the end of the file
def refill (size : Nat) (s : St) : Rc × St :=
  if s.bufferSize < size then (.error, s)
  else
    match s.buffer with
    | some _ => s.fill env
    | none =>
      match env.palloc s.allocs s.bufferSize with
      | none => (.error, s)
      | some p => { s with buffer := some p.1, bufferStart := p.1, allocs := s.allocs + 1 }.fill env

def File.sizeLeft (f : File) : Nat :=
  if (f.fileEnd : Int) < toInt64 (f.offset + f.bufferSize) then f.fileEnd - f.offset else f.bufferSize

def read (s : St) (size : Nat) : Rc × St :=
  if s.bufferPos + size ≤ s.bufferEnd then (.ok, s)
  else refill env size { s with bufferSize := s.sizeLeft }

def readFtypAtom (atomDataSize : Nat) (s : St) : Rc × St :=
  if 1024 < atomDataSize ∨ s.bufferEnd < s.bufferPos + atomDataSize then (.error, s)
  else
    let atomSize := 8 + atomDataSize
    match env.palloc s.allocs atomSize with
    | none => (.error, s)
    | some p =>
      let mem := setAtomName (set32 s.mem p atomSize) p (ngxString "ftyp")
      -- only moov atom content is guaranteed to be in the buffer while the response is sent
      let mem := store mem (p + 8) (load mem s.bufferPos atomDataSize)
      let s :=
        { s with
          mem := mem, allocs := s.allocs + 1, ftypAtom := some ⟨p, p + atomSize⟩, ftypSize := atomSize
          contentLength := atomSize }
      (.ok, s.atomNext atomDataSize)

def readMdatAtom (atomDataSize : Nat) (s : St) : Rc × St :=
  let s := { s with mdatAtom := some ⟨0, 0⟩, mdatData := some ⟨0, ptr s.offset atomDataSize⟩ }
  -- skip atoms after mdat atom
  if s.trak ≠ [] then (.ok, { s with offset := s.fileEnd })
  else (.ok, s.atomNext atomDataSize)

-- mvhd, tkhd and mdhd. Version 0 has 32-bit times, the others have 64-bit ones.
structure DurationAtom where
  name : Bytes
  dataSize : Nat
  dataSize64 : Nat
  duration : Nat
  duration64 : Nat

def mvhdAtom : DurationAtom := ⟨ngxString "mvhd", 100, 112, 24, 32⟩

def tkhdAtom : DurationAtom := ⟨ngxString "tkhd", 84, 96, 28, 36⟩

def mdhdAtom : DurationAtom := ⟨ngxString "mdhd", 24, 36, 24, 32⟩

def readDurationAtom (a : DurationAtom) (timescale : St → Nat → Bool → Nat) (record : Nat → Nat → Nat → St → St)
    (atomDataSize : Nat) (s : St) : Rc × St :=
  let header := s.bufferPos - 8
  let s := { s with mem := setAtomName s.mem header a.name }
  if atomDataSize < a.dataSize then (.error, s)
  else
    let long := s.mem (header + 8) ≠ 0
    if long ∧ atomDataSize < a.dataSize64 then (.error, s)
    else
      let timescale := timescale s header long
      let duration := if long then get64 s.mem (header + a.duration64) else get32 s.mem (header + a.duration)
      let duration := (duration + 2 ^ 64 - s.start * timescale % 2 ^ 64 / 1000) % 2 ^ 64
      let atomSize := ptr 8 atomDataSize
      let mem := set32 s.mem header atomSize
      let mem := if long then set64 mem (header + a.duration64) duration else set32 mem (header + a.duration) duration
      (.ok, (record header atomSize timescale { s with mem := mem }).atomNext atomDataSize)

-- mvhd and mdhd have the timescale in the same place.
def ownTimescale (s : St) (header : Nat) (long : Bool) : Nat :=
  if long then get32 s.mem (header + 28) else get32 s.mem (header + 20)

def readMvhdAtom : Nat → St → Rc × St :=
  readDurationAtom mvhdAtom ownTimescale fun header atomSize timescale s =>
    { s with timescale := timescale, mvhdAtom := some ⟨header, ptr header atomSize⟩ }

def readTkhdAtom : Nat → St → Rc × St :=
  readDurationAtom tkhdAtom (fun s _ _ => s.timescale) fun header atomSize _ s =>
    s.lastTrak fun t => { t with tkhdSize := atomSize }.put .tkhd header (ptr header atomSize)

def readMdhdAtom : Nat → St → Rc × St :=
  readDurationAtom mdhdAtom ownTimescale fun header atomSize timescale s =>
    s.lastTrak fun t => { t with mdhdSize := atomSize, timescale := timescale }.put .mdhd header (ptr header atomSize)

-- hdlr, vmhd, smhd and dinf are sent as they are.
def copyAtom (name : Bytes) (k : TrakAtom) (count : Nat → Trak → Trak) (atomDataSize : Nat) (s : St) : Rc × St :=
  let header := s.bufferPos - 8
  let atomSize := ptr 8 atomDataSize
  let s := { s with mem := setAtomName (set32 s.mem header atomSize) header name }
  let s := s.lastTrak fun t => (count atomSize t).put k header (ptr header atomSize)
  (.ok, s.atomNext atomDataSize)

def readHdlrAtom : Nat → St → Rc × St :=
  copyAtom (ngxString "hdlr") .hdlr fun n t => { t with hdlrSize := n }

def readVmhdAtom : Nat → St → Rc × St :=
  copyAtom (ngxString "vmhd") .vmhd fun n t => { t with vmhdSize := t.vmhdSize + n }

-- The size of smhd is counted with vmhd.
def readSmhdAtom : Nat → St → Rc × St :=
  copyAtom (ngxString "smhd") .smhd fun n t => { t with vmhdSize := t.vmhdSize + n }

def readDinfAtom : Nat → St → Rc × St :=
  copyAtom (ngxString "dinf") .dinf fun n t => { t with dinfSize := t.dinfSize + n }

def readStsdAtom (atomDataSize : Nat) (s : St) : Rc × St :=
  let header := s.bufferPos - 8
  let atomSize := ptr 8 atomDataSize
  let s := { s with mem := setAtomName (set32 s.mem header atomSize) header (ngxString "stsd") }
  if atomDataSize < 16 then (.error, s)
  else
    let mediaName := load s.mem (header + 20) 4
    if mediaName ≠ ngxString "avc1" ∧ mediaName ≠ ngxString "mp4a" then (.declined, s)
    else
      let s := s.lastTrak fun t => { t with size := t.size + atomSize }.put .stsd header (ptr header atomSize)
      (.ok, s.atomNext atomDataSize)

-- A table of entries of one size behind the 16 bytes of the atom's head
structure TableAtom where
  name : Bytes
  entrySize : Nat
  atom : TrakAtom
  data : TrakAtom
  setEntries : Nat → Trak → Trak

def TableAtom.table (a : TableAtom) (header entries : Nat) (t : Trak) : Trak :=
  t.put a.data (header + 16) (header + 16 + entries * a.entrySize)

def readTableAtom (a : TableAtom) (atomDataSize : Nat) (s : St) : Rc × St :=
  let header := s.bufferPos - 8
  let s := { s with mem := setAtomName s.mem header a.name }
  if atomDataSize < 8 then (.error, s)
  else
    let entries := get32 s.mem (header + 12)
    if atomDataSize < 8 + entries * a.entrySize then (.error, s)
    else
      let s := s.lastTrak fun t =>
        a.table header entries ((a.setEntries entries t).put a.atom header (header + 16))
      (.ok, s.atomNext atomDataSize)

-- stss and ctts write the number of entries and the atom's buf before they check the size.
def readTableAtomEarly (a : TableAtom) (atomDataSize : Nat) (s : St) : Rc × St :=
  let header := s.bufferPos - 8
  let s := { s with mem := setAtomName s.mem header a.name }
  if atomDataSize < 8 then (.error, s)
  else
    let entries := get32 s.mem (header + 12)
    let s := s.lastTrak fun t => (a.setEntries entries t).set a.atom header (header + 16)
    if atomDataSize < 8 + entries * a.entrySize then (.error, s)
    else (.ok, (s.lastTrak fun t => a.table header entries (t.link a.atom)).atomNext atomDataSize)

def sttsAtom : TableAtom := ⟨ngxString "stts", 8, .stts, .sttsData, fun n t => { t with timeToSampleEntries := n }⟩

def stssAtom : TableAtom := ⟨ngxString "stss", 4, .stss, .stssData, fun n t => { t with syncSamplesEntries := n }⟩

def cttsAtom : TableAtom := ⟨ngxString "ctts", 8, .ctts, .cttsData, fun n t => { t with compositionOffsetEntries := n }⟩

def stscAtom : TableAtom := ⟨ngxString "stsc", 12, .stsc, .stscData, fun n t => { t with sampleToChunkEntries := n }⟩

def stcoAtom : TableAtom := ⟨ngxString "stco", 4, .stco, .stcoData, fun n t => { t with chunks := n }⟩

def co64Atom : TableAtom := ⟨ngxString "co64", 8, .co64, .co64Data, fun n t => { t with chunks := n }⟩

def readSttsAtom : Nat → St → Rc × St := readTableAtom sttsAtom

def readStssAtom : Nat → St → Rc × St := readTableAtomEarly stssAtom

def readCttsAtom : Nat → St → Rc × St := readTableAtomEarly cttsAtom

def readStscAtom : Nat → St → Rc × St := readTableAtom stscAtom

def readStcoAtom : Nat → St → Rc × St := readTableAtom stcoAtom

def readCo64Atom : Nat → St → Rc × St := readTableAtom co64Atom

-- The head has a uniform size before the number of entries. The table is there when the size is zero.
def readStszAtom (atomDataSize : Nat) (s : St) : Rc × St :=
  let header := s.bufferPos - 8
  let s := { s with mem := setAtomName s.mem header (ngxString "stsz") }
  if atomDataSize < 12 then (.error, s)
  else
    let size := get32 s.mem (header + 12)
    let entries := get32 s.mem (header + 16)
    let s := s.lastTrak fun t => { t with sampleSizesEntries := entries }.put .stsz header (header + 20)
    if size = 0 then
      if atomDataSize < 12 + entries * 4 then (.error, s)
      else
        let s := s.lastTrak fun t => t.put .stszData (header + 20) (header + 20 + entries * 4)
        (.ok, s.atomNext atomDataSize)
    else
      let atomSize := ptr 8 atomDataSize
      let s := { s with mem := set32 s.mem header atomSize }.lastTrak fun t => { t with size := t.size + atomSize }
      (.ok, s.atomNext atomDataSize)

-- ngx_http_mp4_read_atom for the atoms in one, as the handlers call it. Without a code there was no fuel left.
abbrev ReadAtom := Table → Nat → St → Option Rc × St

-- A moov atom that does not fit gets a new buffer, with an excess for the atoms behind it.
def moovBuffer (atomDataSize : Nat) (s : St) : St :=
  if s.bufferSize < atomDataSize then
    { s with
      buffer := none, bufferPos := 0, bufferEnd := 0
      bufferSize := atomDataSize + if s.mdatAtom.isNone then 4096 else 0 }
  else s

-- The part behind the reading of the atoms in moov
def moovDone (noMdat : Bool) (s : St) : St :=
  if noMdat then { s with bufferStart := s.bufferPos, bufferSize := 4096 }
  -- skip atoms after moov atom
  else { s with offset := s.fileEnd }

-- The second moov atom of a file resets trak.elts to mp4->traks, where the first two traks are.
def readMoovAtom (readAtom : ReadAtom) (atomDataSize : Nat) (s : St) : Option Rc × St :=
  let noMdat := s.mdatAtom.isNone
  if noMdat ∧ s.start = 0 then (some .declined, s)
  else if s.bufferSize < atomDataSize ∧ conf.maxBufferSize < atomDataSize then (some .error, s)
  else
    let atom : Buf := ⟨env.moovAtomHeader, env.moovAtomHeader + 8⟩
    match readAtom .moov atomDataSize { moovBuffer atomDataSize s with moovAtom := some atom } with
    | (none, s) => (none, s)
    | (some rc, s) => (some rc, moovDone noMdat s)

def readTrakAtom (readAtom : ReadAtom) (atomDataSize : Nat) (s : St) : Option Rc × St :=
  let header := s.bufferPos - 8
  let s :=
    { s with
      trak := s.trak ++ [({} : Trak).put .trak header (header + 8)]
      mem := setAtomName s.mem header (ngxString "trak") }
  let atomEnd := ptr s.bufferPos atomDataSize
  let atomFileEnd := ptr s.offset atomDataSize
  match readAtom .trak atomDataSize s with
  -- skip this trak
  | (some .declined, s) => (some .ok, { s with trak := s.trak.dropLast, bufferPos := atomEnd, offset := atomFileEnd })
  | r => r

-- mdia, minf and stbl
def containerAtom (name : Bytes) (k : TrakAtom) (table : Table) (readAtom : ReadAtom) (atomDataSize : Nat) (s : St) :
    Option Rc × St :=
  let header := s.bufferPos - 8
  let s := { s with mem := setAtomName s.mem header name }.lastTrak fun t => t.put k header (header + 8)
  readAtom table atomDataSize s

def readMdiaAtom : ReadAtom → Nat → St → Option Rc × St := containerAtom (ngxString "mdia") .mdia .mdia

def readMinfAtom : ReadAtom → Nat → St → Option Rc × St := containerAtom (ngxString "minf") .minf .minf

def readStblAtom : ReadAtom → Nat → St → Option Rc × St := containerAtom (ngxString "stbl") .stbl .stbl

-- A handler that reads no atoms
def leaf (r : Rc × St) : Option Rc × St := (some r.1, r.2)

def handle (readAtom : ReadAtom) : Handler → Nat → St → Option Rc × St
  | .ftyp, n, s => leaf (readFtypAtom env n s)
  | .moov, n, s => readMoovAtom env conf readAtom n s
  | .mdat, n, s => leaf (readMdatAtom n s)
  | .mvhd, n, s => leaf (readMvhdAtom n s)
  | .trak, n, s => readTrakAtom readAtom n s
  | .cmov, _, s => (some .error, s)
  | .tkhd, n, s => leaf (readTkhdAtom n s)
  | .mdia, n, s => readMdiaAtom readAtom n s
  | .mdhd, n, s => leaf (readMdhdAtom n s)
  | .hdlr, n, s => leaf (readHdlrAtom n s)
  | .minf, n, s => readMinfAtom readAtom n s
  | .vmhd, n, s => leaf (readVmhdAtom n s)
  | .smhd, n, s => leaf (readSmhdAtom n s)
  | .dinf, n, s => leaf (readDinfAtom n s)
  | .stbl, n, s => readStblAtom readAtom n s
  | .stsd, n, s => leaf (readStsdAtom n s)
  | .stts, n, s => leaf (readSttsAtom n s)
  | .stss, n, s => leaf (readStssAtom n s)
  | .ctts, n, s => leaf (readCttsAtom n s)
  | .stsc, n, s => leaf (readStscAtom n s)
  | .stsz, n, s => leaf (readStszAtom n s)
  | .stco, n, s => leaf (readStcoAtom n s)
  | .co64, n, s => leaf (readCo64Atom n s)

-- A call of ngx_http_mp4_read by ngx_http_mp4_read_atom
def readFor (table : Table) (s : St) (size : Nat) : Rc × St := read env (s.log (.read table s.toFile size)) size

-- The size is known: the whole header, and whether the atom is too large
def checkAtom (table : Table) (stop atomSize headerSize : Nat) (s : St) : (Rc ⊕ Nat × Nat) × St :=
  match readFor env table s 8 with
  | (.ok, s) =>
    if 2 ^ 63 - 1 - s.offset < atomSize ∨ stop < s.offset + atomSize then (.inl .error, s)
    else (.inr (atomSize, headerSize), s)
  | (_, s) => (.inl .error, s)

-- The loop of ngx_http_mp4_read_atom up to the names: what it returns, or the sizes of the atom and of its header
def readHeader (table : Table) (stop : Nat) (s : St) : (Rc ⊕ Nat × Nat) × St :=
  match readFor env table s 4 with
  | (.ok, s) =>
    let atomSize := get32 s.mem s.bufferPos
    if atomSize = 0 then (.inl .ok, s)
    else if atomSize < 8 then
      if atomSize = 1 then
        match readFor env table s 16 with
        | (.ok, s) =>
          let atomSize := get64 s.mem (s.bufferPos + 8)
          checkAtom env table stop atomSize 16 (s.log (.size64 atomSize))
        | (_, s) => (.inl .error, s)
      else (.inl .error, s)
    else checkAtom env table stop atomSize 8 s
  | (_, s) => (.inl .error, s)

-- Each turn, and each handler that is called in it, takes one from the fuel.
def readAtomLoop : Nat → Table → Nat → St → Option Rc × St
  | 0, _, _, s => (none, s)
  | fuel + 1, table, stop, s =>
    if s.offset < stop then
      match readHeader env table stop s with
      | (.inl rc, s) => (some rc, s)
      | (.inr (atomSize, headerSize), s) =>
        match table.find (load s.mem (s.bufferPos + 4) 4) with
        | none => readAtomLoop fuel table stop (s.atomNext atomSize)
        | some h =>
          let s := s.atomNext headerSize
          let atomDataSize := ptr atomSize (2 ^ 64 - headerSize)
          let call := handle env conf (fun table n s => readAtomLoop fuel table (ptr s.offset n) s)
          match call h atomDataSize (s.log (.call table h s.toFile atomDataSize)) with
          | (some .ok, s) => readAtomLoop fuel table stop s
          | r => r
    else (some .ok, s)

def readAtom (fuel : Nat) (table : Table) (atomDataSize : Nat) (s : St) : Option Rc × St :=
  readAtomLoop env conf fuel table (ptr s.offset atomDataSize) s

end Nginx.Mp4
