import Nginx.Core.Crc32

namespace Nginx.OpenFileCache

-- ngx_file_info_t, as far as it is read
structure FileInfo where
  uniq : Nat
  mtime : Int
  size : Int
  fsSize : Int
  isDir : Bool
  isFile : Bool
  isLink : Bool
  isExec : Bool

-- of->failed: ngx_file_info_n or ngx_open_file_n
inductive Failed where
  | fileInfo
  | openFile

-- ngx_open_file_info_t; none is NGX_INVALID_FILE. Descriptors are counted, so that none is given out again.
structure OpenFileInfo where
  fd : Option Nat := none
  uniq : Nat := 0
  mtime : Int := 0
  size : Int := 0
  fsSize : Int := 0
  directio : Int := 0
  err : Nat := 0
  failed : Option Failed := none
  valid : Int := 0
  minUses : Nat := 0
  testDir : Bool := false
  errors : Bool := false
  isDir : Bool := false
  isFile : Bool := false
  isLink : Bool := false
  isExec : Bool := false
  isDirectio : Bool := false

-- ngx_cached_open_file_t. Without vnode events ngx_open_file_add_event does nothing: event is NULL, use_event is 0.
structure CachedFile where
  key : UInt32
  name : Bytes
  created : Int
  accessed : Int
  fd : Option Nat
  uniq : Nat
  mtime : Int
  size : Int
  err : Nat
  uses : Nat
  count : Nat
  close : Bool
  isDir : Bool
  isFile : Bool
  isLink : Bool
  isExec : Bool
  isDirectio : Bool

-- ngx_open_file_cache_cleanup_t
structure Cleanup where
  file : Nat
  minUses : Nat
deriving DecidableEq

-- max and inactive of ngx_open_file_cache_t
structure Limits where
  max : Nat
  inactive : Int

-- The memory with the files in it (live are those that are allocated and not freed), the cache, the cleanups that are set
-- in the pools, how many descriptors were opened and every call of ngx_close_file
structure State where
  files : Nat → CachedFile
  nextFile : Nat
  live : List Nat
  tree : List Nat
  queue : List Nat
  current : Nat
  cleanups : List Cleanup
  opened : Nat
  closed : List Nat

-- What the system says during one call: the time, ngx_file_info, ngx_open_file (an errno or nothing), ngx_fd_info,
-- ngx_directio_on, the allocations and what they leave in the memory
structure Env where
  now : Int
  fileInfo : Except Nat FileInfo
  openFile : Option Nat
  fdInfo : Except Nat FileInfo
  directioOn : Bool
  cleanupAdd : Bool
  allocs : Bool
  fresh : CachedFile

def State.setFile (s : State) (i : Nat) (file : CachedFile) : State :=
  { s with files := fun j => if j = i then file else s.files j }

def State.closeFd (s : State) (fd : Option Nat) : State :=
  match fd with
  | some fd => { s with closed := fd :: s.closed }
  | none => s

def State.free (s : State) (i : Nat) : State := { s with live := s.live.erase i }

-- ngx_rbtree_delete and cache->current--
def State.delete (s : State) (i : Nat) : State := { s with tree := s.tree.erase i, current := s.current - 1 }

def State.unqueue (s : State) (i : Nat) : State := { s with queue := s.queue.erase i }

-- ngx_queue_insert_head
def State.enqueue (s : State) (i : Nat) : State := { s with queue := i :: s.queue }

-- count has 24 bits.
def countUp (count : Nat) : Nat := (count + 1) % 2 ^ 24

def countDown (count : Nat) : Nat := (count + (2 ^ 24 - 1)) % 2 ^ 24

-- The end of ngx_close_cached_file
def closeUnused (s : State) (i : Nat) : State :=
  let file := s.files i
  if file.count ≠ 0 then s
  else
    let s := (s.closeFd file.fd).setFile i { file with fd := none }
    if !file.close then s else s.free i

-- ngx_close_cached_file
def closeCachedFile (now : Int) (s : State) (i minUses : Nat) : State :=
  let file := s.files i
  if !file.close then
    let s := ((s.setFile i { file with accessed := now }).unqueue i).enqueue i
    if file.uses ≥ minUses ∨ file.count ≠ 0 then s else closeUnused s i
  else closeUnused s i

-- What ngx_expire_old_cached_files does with the last file of the queue
def expireFile (now : Int) (s : State) (i : Nat) : State :=
  let s := (s.unqueue i).delete i
  let file := s.files i
  if file.err = 0 ∧ file.isDir = false then closeCachedFile now (s.setFile i { file with close := true }) i 0
  else s.free i

-- while (n < 3), with 3 - n
def expireLoop (limits : Limits) (now : Int) : Nat → Nat → State → State
  | 0, _, s => s
  | left + 1, n, s =>
      match s.queue.getLast? with
      | none => s
      | some i =>
          if n ≠ 0 ∧ now - (s.files i).accessed ≤ limits.inactive then s
          else expireLoop limits now left (n + 1) (expireFile now s i)

-- ngx_expire_old_cached_files
def expireOld (limits : Limits) (now : Int) (n : Nat) (s : State) : State := expireLoop limits now (3 - n) n s

-- ngx_open_file_cleanup
def fileCleanup (limits : Limits) (now : Int) (s : State) (c : Cleanup) : State :=
  let s := { s with cleanups := s.cleanups.erase c }
  let file := s.files c.file
  let s := s.setFile c.file { file with count := countDown file.count }
  expireOld limits now 1 (closeCachedFile now s c.file c.minUses)

def cstr (name : Bytes) : Bytes := name.takeWhile (· ≠ 0)

-- ngx_open_file_lookup in the search tree by key and name
def lookup (s : State) (name : Bytes) (hash : UInt32) : Option Nat :=
  s.tree.find? fun i => (s.files i).key == hash && (s.files i).name == cstr name

-- The label done of ngx_open_and_stat_file
def OpenFileInfo.done (of : OpenFileInfo) (fi : FileInfo) : OpenFileInfo :=
  { of with
    uniq := fi.uniq, mtime := fi.mtime, size := fi.size, fsSize := fi.fsSize
    isDir := fi.isDir, isFile := fi.isFile, isLink := fi.isLink, isExec := fi.isExec }

-- Its label failed
def OpenFileInfo.fail (of : OpenFileInfo) (failed : Failed) (err : Nat) : OpenFileInfo :=
  { of with fd := none, failed := some failed, err }

variable (env : Env)

-- From ngx_open_file on
def openAndFdInfo (s : State) (of : OpenFileInfo) : Bool × OpenFileInfo × State :=
  match env.openFile with
  | some err => (false, of.fail .openFile err, s)
  | none =>
      let fd := s.opened
      let s := { s with opened := s.opened + 1 }
      match env.fdInfo with
      | .error _ => (false, { of with fd := none }, s.closeFd (some fd))
      | .ok fi =>
          if fi.isDir then (true, { of with fd := none }.done fi, s.closeFd (some fd))
          else
            let isDirectio := of.isDirectio || (decide (of.directio ≤ fi.size) && env.directioOn)
            (true, { of with fd := some fd, isDirectio }.done fi, s)

-- ngx_open_and_stat_file: whether it returns NGX_OK
def openAndStatFile (s : State) (of : OpenFileInfo) : Bool × OpenFileInfo × State :=
  if of.fd ≠ none then
    match env.fileInfo with
    | .error err => (false, of.fail .fileInfo err, s)
    | .ok fi => if of.uniq = fi.uniq then (true, of.done fi, s) else openAndFdInfo env s of
  else if of.testDir then
    match env.fileInfo with
    | .error err => (false, of.fail .fileInfo err, s)
    | .ok fi => if fi.isDir then (true, of.done fi, s) else openAndFdInfo env s of
  else openAndFdInfo env s of

-- The labels of ngx_open_cached_file, each with what follows it; the last part is whether it returns NGX_OK
def found (s : State) (i : Nat) (of : OpenFileInfo) : State × OpenFileInfo × Bool :=
  let s := (s.setFile i { s.files i with accessed := env.now }).enqueue i
  if of.err = 0 then
    if of.isDir then (s, of, true) else ({ s with cleanups := ⟨i, of.minUses⟩ :: s.cleanups }, of, true)
  else (s, of, false)

def update (s : State) (i : Nat) (of : OpenFileInfo) : State × OpenFileInfo × Bool :=
  let file := { s.files i with fd := of.fd, err := of.err }
  let file :=
    if of.err = 0 then
      { file with
        uniq := of.uniq, mtime := of.mtime, size := of.size, close := false
        isDir := of.isDir, isFile := of.isFile, isLink := of.isLink, isExec := of.isExec, isDirectio := of.isDirectio
        count := if of.isDir then file.count else countUp file.count }
    else file
  found env (s.setFile i { file with created := env.now }) i of

def failed (s : State) (i : Option Nat) (of : OpenFileInfo) : State × OpenFileInfo × Bool :=
  let s :=
    match i with
    | none => s
    | some i =>
        let s := s.delete i
        let file := s.files i
        if file.count = 0 then (s.closeFd file.fd).free i else s.setFile i { file with close := true }
  (s.closeFd of.fd, of, false)

def create (limits : Limits) (s : State) (name : Bytes) (of : OpenFileInfo) : State × OpenFileInfo × Bool :=
  let s := if s.current ≥ limits.max then expireOld limits env.now 0 s else s
  if !env.allocs then failed s none of
  else
    let i := s.nextFile
    let file := { env.fresh with name := cstr name, key := crc32Long name, uses := 1, count := 0 }
    let s := { s with nextFile := i + 1, live := i :: s.live, tree := i :: s.tree, current := s.current + 1 }
    update env (s.setFile i file) i of

-- What stands behind the retest for a file that is not what it was
def replace (limits : Limits) (s : State) (i : Nat) (name : Bytes) (of : OpenFileInfo) : State × OpenFileInfo × Bool :=
  let file := s.files i
  if file.count = 0 then update env (s.closeFd file.fd) i of
  else create env limits ((s.delete i).setFile i { file with close := true }) name of

-- rc != NGX_OK && (of->err == 0 || !of->errors)
def refused (ok : Bool) (of : OpenFileInfo) : Bool := !ok && (of.err == 0 || !of.errors)

-- A name that is not in the cache
def openNew (limits : Limits) (s : State) (name : Bytes) (of : OpenFileInfo) : State × OpenFileInfo × Bool :=
  let (ok, of, s) := openAndStatFile env s of
  if refused ok of then failed s none of else create env limits s name of

-- "file was not used often enough to keep open"
def reopen (s : State) (i : Nat) (of : OpenFileInfo) : State × OpenFileInfo × Bool :=
  let (ok, of, s) := openAndStatFile env s of
  if refused ok of then failed s (some i) of else update env s i of

-- A file that is taken from the cache
def hit (s : State) (i : Nat) (of : OpenFileInfo) : State × OpenFileInfo × Bool :=
  let file := s.files i
  if file.err = 0 then
    let of :=
      { of with
        fd := file.fd, uniq := file.uniq, mtime := file.mtime, size := file.size
        isDir := file.isDir, isFile := file.isFile, isLink := file.isLink, isExec := file.isExec
        isDirectio := file.isDirectio }
    found env (if file.isDir then s else s.setFile i { file with count := countUp file.count }) i of
  else found env s i { of with err := file.err, failed := some .openFile }

def retest (limits : Limits) (s : State) (i : Nat) (name : Bytes) (of : OpenFileInfo) : State × OpenFileInfo × Bool :=
  let file := s.files i
  let of := { of with testDir := of.testDir || file.isDir, fd := file.fd, uniq := file.uniq }
  let (ok, of, s) := openAndStatFile env s of
  if refused ok of then failed s (some i) of
  else if of.isDir then
    if file.isDir = true ∨ file.err ≠ 0 then update env s i of else replace env limits s i name of
  else if of.err = 0 then
    if file.isDir = true ∨ file.err ≠ 0 then update env s i of
    else if of.uniq = file.uniq then update env s i { of with isDirectio := file.isDirectio }
    else replace env limits s i name of
  else if file.isDir = true ∨ file.err ≠ 0 then update env s i of
  else replace env limits s i name of

def openCachedFile (limits : Limits) (s : State) (name : Bytes) (of : OpenFileInfo) : State × OpenFileInfo × Bool :=
  let of := { of with fd := none, err := 0 }
  if !env.cleanupAdd then (s, of, false)
  else
    match lookup s name (crc32Long name) with
    | none => openNew env limits s name of
    | some i =>
        let file := { s.files i with uses := ((s.files i).uses + 1) % 2 ^ 32 }
        let s := (s.setFile i file).unqueue i
        if file.fd = none ∧ file.err = 0 ∧ file.isDir = false then reopen env s i of
        else if (of.uniq = 0 ∨ of.uniq = file.uniq) ∧ env.now - file.created < of.valid then hit env s i of
        else retest env limits s i name of

-- The cache of ngx_open_file_cache_init
def State.initial (files : Nat → CachedFile) : State := ⟨files, 0, [], [], [], 0, [], 0, []⟩

-- A call of ngx_open_cached_file, the cleanup of a pool, or an expiration
inductive Event where
  | openFile (env : Env) (name : Bytes) (of : OpenFileInfo)
  | cleanup (now : Int) (c : Cleanup)
  | expire (now : Int) (n : Nat)

-- A pool runs a cleanup that is set in it.
def step (limits : Limits) (s : State) : Event → State
  | .openFile env name of => (openCachedFile env limits s name of).1
  | .cleanup now c => if c ∈ s.cleanups then fileCleanup limits now s c else s
  | .expire now n => expireOld limits now n s

end Nginx.OpenFileCache
