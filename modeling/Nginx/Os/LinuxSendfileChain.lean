import Nginx.Core.Hash.Layout
import Nginx.Os.WritevChain

namespace Nginx.Os

open ByteMemory

-- NGX_SENDFILE_LIMIT
def sendfileLimit : Nat := 2147483647

-- A buf of neither kind is an error, and a buf in a file ends the loop.
def linuxLook (b : Buf) : Look :=
  if !b.inMemory && !b.inFile then .error
  else if !b.inMemoryOnly then .stop
  else .take

def linuxPass (b : Buf) : Buf :=
  { b with
    pos := if b.inMemory then b.last else b.pos
    filePos := if b.inFile then b.fileLast else b.filePos }

-- TCP_CORK and TCP_NODELAY are mutually exclusive. None is an error; an interrupted call is passed over.
def unsetNodelay (answer : Setsockopt) (c : Connection) : Option Connection :=
  if c.tcpNodelay = .set then
    match answer with
    | .done => some { c with tcpNodelay := .unset }
    | .intr => some c
    | .error => none
  else some c

def setNopush (answer : Setsockopt) (c : Connection) : Option Connection :=
  if c.tcpNodelay = .unset then
    match answer with
    | .done => some { c with tcpNopush := .set }
    | .intr => some c
    | .error => none
  else some c

-- "set TCP_CORK if there is a header before a file"
def cork (t : Turn) (c : Connection) (g : Gathered) : Option Connection :=
  if c.tcpNopush = .unset ∧ g.header ≠ [] ∧ g.cl.head?.any Buf.inFile = true then
    (unsetNodelay t.nodelay c).bind (setNopush t.nopush)
  else some c

-- What is taken of a file buf: one that the limit cuts is cut at a page, if it has one there.
def fileSize (page limit send : Nat) (b : Buf) : Nat :=
  let size := b.fileLast - b.filePos
  if limit < send + size then
    let size := limit - send
    let aligned := Hash.align (b.filePos + size) page
    if aligned ≤ b.fileLast then aligned - b.filePos else size
  else size

-- "coalesce the neighbouring file bufs": the size of the run, and send after it.
-- The first buf of the do ... while meets the condition.
def coalesceFile (page limit fd : Nat) : Chain → Nat → Nat → Nat → Nat × Nat
  | [], _, size, send => (size, send)
  | b :: cl, fprev, size, send =>
    if b.inFile ∧ send < limit ∧ fd = b.file ∧ fprev = b.filePos then
      let n := fileSize page limit send b
      coalesceFile page limit fd cl (b.filePos + n) (size + n) (send + n)
    else (size, send)

inductive Call where
  | writev (header : List Iov)
  | sendfile (fd offset size : Nat)
  deriving DecidableEq, Repr

def Call.given (w : World) : Call → Bytes
  | .writev header => iovBytes w.mem header
  | .sendfile fd offset size => load (w.file fd) offset size

-- The call that a turn makes, and send
def request (page limit : Nat) (g : Gathered) : Except Failure (Call × Nat) :=
  match g.header, g.cl with
  | [], b :: cl =>
    if b.inFile ∧ g.send < limit then
      let (size, send) := coalesceFile page limit b.file (b :: cl) b.filePos 0 g.send
      if size = 0 then .error .chainError else .ok (.sendfile b.file b.filePos size, send)
    else .ok (.writev [], g.send)
  | header, _ => .ok (.writev header, g.send)

def linuxLoop (w : World) (os : System) (limit : Nat) : List Turn → Connection → Chain → Nat → Outcome
  | [], _, _, _ => .running
  | t :: turns, c, chain, send =>
    match gather linuxLook os.iovMax t.pushes limit chain [] 0 send with
    | .error f => .failed f c
    | .ok g =>
      match cork t c g with
      | none => .failed .chainError { c with error := true }
      | some c =>
        match request os.pagesize limit g with
        | .error f => .failed f c
        | .ok (call, send') =>
          match settle Buf.size linuxPass Buf.advance limit t.call (call.given w) c chain send send' false with
          | .done o => o
          | .next c chain _ => linuxLoop w os limit turns c chain send'

def linuxSendfileChain (w : World) (os : System) (turns : List Turn) (c : Connection) (chain : Chain) (limit : Nat) :
    Outcome :=
  if !c.ready then .returned c chain
  else linuxLoop w os (clampLimit (sendfileLimit - os.pagesize) limit) turns c chain 0

-- The socket options change nothing that was sent.
def SameSent (c c' : Connection) : Prop := c'.sent = c.sent ∧ c'.socket = c.socket

theorem unsetNodelay_same {answer : Setsockopt} {c c' : Connection} (h : unsetNodelay answer c = some c') :
    SameSent c c' := by
  unfold unsetNodelay at h
  split at h
  · cases answer <;> cases h <;> exact ⟨rfl, rfl⟩
  · cases h
    exact ⟨rfl, rfl⟩

theorem setNopush_same {answer : Setsockopt} {c c' : Connection} (h : setNopush answer c = some c') :
    SameSent c c' := by
  unfold setNopush at h
  split at h
  · cases answer <;> cases h <;> exact ⟨rfl, rfl⟩
  · cases h
    exact ⟨rfl, rfl⟩

theorem cork_same {t : Turn} {c c' : Connection} {g : Gathered} (h : cork t c g = some c') : SameSent c c' := by
  unfold cork at h
  split at h
  · obtain ⟨c2, hnodelay, hnopush⟩ := Option.bind_eq_some_iff.mp h
    have hone := unsetNodelay_same hnodelay
    have htwo := setNopush_same hnopush
    exact ⟨htwo.1.trans hone.1, htwo.2.trans hone.2⟩
  · cases h
    exact ⟨rfl, rfl⟩

theorem Sends.same {w : World} {c c' c'' : Connection} {chain rest : Chain} {most : Nat} (h : SameSent c c')
    (hsends : Sends w c' chain c'' rest most) : Sends w c chain c'' rest most := by
  obtain ⟨bytes, hbytes, hsocket, hsent, hmost⟩ := hsends
  exact ⟨bytes, hbytes, h.2 ▸ hsocket, h.1 ▸ hsent, hmost⟩

section

variable {w : World} {os : System} {page limit bound : Nat}

-- bound is what send can reach: one page less one byte over the limit when there is a file buf.
structure LinuxBuf (w : World) (page limit bound : Nat) (b : Buf) : Prop where
  wf : b.Wf w
  bound : b.inFile = true → limit + page ≤ bound + 1

theorem linux_gatherable {chain : Chain} (h : ∀ b ∈ chain, LinuxBuf w page limit bound b) :
    ∀ b ∈ chain, Gatherable w linuxLook b := by
  intro b hb
  refine ⟨(h b hb).wf.special_bytes, ?_⟩
  intro _ hlook
  have hmem : b.inMemory = true := by
    unfold linuxLook at hlook
    split at hlook
    · cases hlook
    · split at hlook
      · cases hlook
      · rename_i honly
        simp only [Buf.inMemoryOnly, Bool.not_eq_true', Bool.not_eq_false, Bool.and_eq_true] at honly
        exact honly.1
  rw [Buf.bytes, hmem, if_pos rfl]

theorem linux_updatable (w : World) (page limit bound : Nat) :
    Updatable w Buf.size Buf.advance (LinuxBuf w page limit bound) := by
  constructor
  · exact fun b h => h.wf.special_bytes
  · exact fun b _ _ => (Buf.bytes_length b).symm
  · intro b n h _ hn
    rw [Buf.bytes_length] at hn
    exact ⟨⟨h.wf.advance hn, h.bound⟩, h.wf.advance_bytes hn⟩

theorem fileSize_spec (hpage : 0 < page) {send : Nat} (hsend : send < limit) (b : Buf) :
    fileSize page limit send b ≤ b.fileLast - b.filePos ∧ send + fileSize page limit send b < limit + page ∧
      (fileSize page limit send b = b.fileLast - b.filePos ∨ limit ≤ send + fileSize page limit send b) := by
  have hle := Hash.le_align (b.filePos + (limit - send)) page hpage
  have hlt := Hash.align_lt (b.filePos + (limit - send)) page hpage
  unfold fileSize
  dsimp only
  split
  · split <;> omega
  · omega

theorem coalesceFile_full {fd : Nat} {chain : Chain} {fprev size send : Nat} (h : limit ≤ send) :
    coalesceFile page limit fd chain fprev size send = (size, send) := by
  cases chain with
  | nil => rfl
  | cons b cl => rw [coalesceFile, if_neg (by omega)]

-- The run of file bufs is one piece of the file, and it is the beginning of the chain.
theorem coalesceFile_spec (hpage : 0 < page) {fd : Nat} {chain : Chain}
    (hchain : ∀ b ∈ chain, LinuxBuf w page limit bound b) {fprev size send : Nat} (hsend : send ≤ bound) :
    ∃ n, n ≤ (chainBytes w chain).length ∧
      coalesceFile page limit fd chain fprev size send = (size + n, send + n) ∧ send + n ≤ bound ∧
      load (w.file fd) fprev n = (chainBytes w chain).take n := by
  induction chain generalizing fprev size send with
  | nil => exact ⟨0, Nat.le_refl 0, rfl, hsend, rfl⟩
  | cons b cl ih =>
      have hb := hchain b List.mem_cons_self
      have hcl := fun c hc => hchain c (List.mem_cons_of_mem b hc)
      rw [coalesceFile]
      split
      · rename_i hrun
        obtain ⟨hin, hlt, hfd, hfprev⟩ := hrun
        obtain ⟨hle, hpages, hwhole⟩ := fileSize_spec hpage hlt b
        obtain ⟨hsize, hbytes⟩ := hb.wf.file_bytes hin
        have hlen : (b.bytes w).length = b.fileLast - b.filePos := by rw [Buf.bytes_length, hsize]
        have hbound := hb.bound hin
        dsimp only
        generalize fileSize page limit send b = m at hle hpages hwhole
        by_cases hcut : m = b.fileLast - b.filePos
        · obtain ⟨n, hn, heq, hmost, hload⟩ := @ih hcl (b.filePos + m) (size + m) (send + m) (by omega)
          refine ⟨m + n, ?_, ?_, by omega, ?_⟩
          · rw [chainBytes_cons, List.length_append]
            omega
          · rw [heq, Nat.add_assoc, Nat.add_assoc]
          · have htake : (b.bytes w).take (m + n) = b.bytes w := List.take_of_length_le (by omega)
            rw [chainBytes_cons, List.take_append, htake, hlen, hcut, Nat.add_sub_cancel_left, hbytes, ← hload,
              hfd, hfprev, ← hcut, load_append]
        · -- the limit cuts this buf, and the loop ends
          have hfull := hwhole.resolve_left hcut
          refine ⟨m, ?_, ?_, by omega, ?_⟩
          · rw [chainBytes_cons, List.length_append]
            omega
          · exact coalesceFile_full hfull
          · rw [chainBytes_cons, List.take_append_of_le_length (by omega), hbytes, hfd, hfprev, load_take _ _ _ _ hle]
      · exact ⟨0, Nat.zero_le _, rfl, hsend, rfl⟩

-- The call of a turn is given the first bytes of the chain.
theorem request_spec (hpage : 0 < page) {pushes iovMax : Nat} {chain : Chain}
    (hchain : ∀ b ∈ chain, LinuxBuf w page limit bound b) {send send' : Nat} {g : Gathered} {call : Call}
    (hsend : send ≤ bound) (hlimit : limit ≤ bound)
    (hg : gather linuxLook iovMax pushes limit chain [] 0 send = .ok g)
    (h : request page limit g = .ok (call, send')) :
    ∃ n, n ≤ (chainBytes w chain).length ∧ send' = send + n ∧ send' ≤ bound ∧
      call.given w = (chainBytes w chain).take n := by
  have hgatherable := linux_gatherable hchain
  have hadjacent : Adjacent [] 0 := by
    intro _ _ heq
    cases heq
  obtain ⟨n, hn, hgrown, hbytes⟩ := gather_spec hgatherable hadjacent hg
  have hle : g.send ≤ bound := by
    by_cases hfull : limit ≤ send
    · rw [gather_full hfull hg]
      exact hsend
    · exact Nat.le_trans (gather_send_le (by omega) hg) hlimit
  unfold request at h
  split at h
  · rename_i b cl hheader hcl
    obtain ⟨-, hnone, hsame, hsub⟩ := gather_none hgatherable hadjacent hg hheader
    split at h
    · rename_i hfile
      have hcl' : ∀ c ∈ b :: cl, LinuxBuf w page limit bound c := fun c hc => hchain c (hsub (hcl ▸ hc))
      obtain ⟨m, hm, heq, hmost, hload⟩ := @coalesceFile_spec w page limit bound hpage b.file _ hcl' b.filePos 0 g.send hle
      rw [heq] at h
      dsimp only at h
      split at h
      · cases h
      · cases h
        rw [hcl] at hsame
        rw [hsame] at hm hload
        rw [Nat.zero_add]
        exact ⟨m, hm, by rw [hnone], hmost, hload⟩
    · cases h
      rw [hheader] at hbytes
      exact ⟨n, hn, hgrown, hle, hbytes⟩
  · cases h
    exact ⟨n, hn, hgrown, hle, hbytes⟩

theorem linuxLoop_sends {turns : List Turn} {c c' : Connection} {chain rest : Chain} {send : Nat}
    (hchain : ∀ b ∈ chain, LinuxBuf w os.pagesize limit bound b) (hsend : send ≤ bound) (hlimit : limit ≤ bound)
    (h : linuxLoop w os limit turns c chain send = .returned c' rest) :
    Sends w c chain c' rest (bound - send) := by
  induction turns generalizing c chain send with
  | nil => cases h
  | cons t turns ih =>
      rw [linuxLoop] at h
      split at h
      · cases h
      · rename_i g hg
        split at h
        · cases h
        · rename_i c1 hcork
          apply Sends.same (cork_same hcork)
          split at h
          · cases h
          · rename_i call send' hrequest
            obtain ⟨n, hn, hgrown, hle, hbytes⟩ :=
              request_spec (Nat.two_pow_pos os.pageShift) hchain hsend hlimit hg hrequest
            have hstep := @settle_spec w limit _ _ _ linuxPass (linux_updatable w os.pagesize limit bound) _ hchain t.call
              _ c1 send send' false _ hn hbytes
            split at h
            · rename_i o hdone
              rw [hdone, h] at hstep
              exact Sends.mono hstep (by omega)
            · rename_i c2 chain2 complete2 hnext
              rw [hnext] at hstep
              obtain ⟨hsends, hkept⟩ := hstep
              exact (hsends.trans (ih hkept hle h)).mono (by omega)

theorem linuxSendfileChain_sends {turns : List Turn} {c c' : Connection} {chain rest : Chain}
    (hchain : ∀ b ∈ chain, LinuxBuf w os.pagesize (clampLimit (sendfileLimit - os.pagesize) limit) bound b)
    (hbound : clampLimit (sendfileLimit - os.pagesize) limit ≤ bound)
    (h : linuxSendfileChain w os turns c chain limit = .returned c' rest) : Sends w c chain c' rest bound := by
  unfold linuxSendfileChain at h
  split at h
  · cases h
    exact Sends.none w c chain bound
  · exact (linuxLoop_sends hchain (Nat.zero_le bound) hbound h).mono (Nat.sub_le bound 0)

end

-- Both senders: when one returns a chain, the kernel has the bytes before it and the chain describes the others.
-- A limit of 0 is no limit, and a file buf may be taken to the end of its page.
theorem senders_send (w : World) (os : System) (turns : List Turn) (c c' : Connection) (chain rest : Chain) (limit : Nat)
    (hchain : ChainWf w chain) :
    (linuxSendfileChain w os turns c chain limit = .returned c' rest →
      ∃ most, Sends w c chain c' rest most ∧ (limit ≠ 0 → most < limit + os.pagesize) ∧
        ((∀ b ∈ chain, b.inFile = false) → limit ≠ 0 → most ≤ limit)) ∧
    ((∀ b ∈ chain, b.special = true ∨ b.inMemory = true) →
      writevChain w os turns c chain limit = .returned c' rest →
      ∃ most, Sends w c chain c' rest most ∧ (limit ≠ 0 → most ≤ limit)) := by
  have hpage : 0 < os.pagesize := Nat.two_pow_pos os.pageShift
  constructor
  · intro h
    by_cases hfile : ∀ b ∈ chain, b.inFile = false
    · refine ⟨_, linuxSendfileChain_sends ?_ (Nat.le_refl _) h, ?_, fun _ => clampLimit_le _⟩
      · intro b hb
        exact ⟨hchain b hb, fun hin => absurd ((hfile b hb).symm.trans hin) (by decide)⟩
      · intro hlimit
        have hle := clampLimit_le (sendfileLimit - os.pagesize) hlimit
        omega
    · refine ⟨clampLimit (sendfileLimit - os.pagesize) limit + os.pagesize - 1,
        linuxSendfileChain_sends ?_ (by omega) h, ?_, fun hnone => absurd hnone hfile⟩
      · intro b hb
        exact ⟨hchain b hb, fun _ => by omega⟩
      · intro hlimit
        have hle := clampLimit_le (sendfileLimit - os.pagesize) hlimit
        omega
  · intro hmemory h
    refine ⟨_, writevChain_sends ?_ h, clampLimit_le _⟩
    intro b hb
    exact WritevBuf.of_wf (hchain b hb) (hmemory b hb)

-- A flush, three bytes of memory and a file, with a limit of eight and pages of four: the first call is interrupted,
-- the second sends the memory, and the third sends the file to the end of the page in which the limit falls.
theorem senders_send_page :
    ∃ w : World, ∃ os : System, ∃ turns c c' chain rest,
      linuxSendfileChain w os turns c chain 8 = .returned c' rest ∧ c'.socket = [10, 11, 12, 5, 6, 7] ∧
        (∃ most, Sends w c chain c' rest most ∧ most < 8 + os.pagesize) ∧
        ∃ most, Sends w c (chain.take 2) { c with sent := 3, socket := [10, 11, 12] } [] most ∧ most ≤ 8 := by
  let w : World := ⟨fun a => UInt8.ofNat a, fun _ a => UInt8.ofNat a⟩
  let os : System := ⟨2, 64⟩
  let c : Connection := ⟨true, false, 0, .unset, .unset, []⟩
  let flush : Buf := { Buf.empty with flush := true }
  let memory : Buf := { Buf.empty with pos := 10, last := 13, memory := true }
  let file : Buf := { Buf.empty with filePos := 5, fileLast := 20, inFile := true }
  let turns : List Turn := [⟨1, .done, .done, .intr⟩, ⟨1, .done, .done, .count 3⟩, ⟨1, .done, .done, .count 5⟩]
  have hchain : ChainWf w [flush, memory, file] := by
    intro b hb
    simp only [List.mem_cons, List.not_mem_nil, or_false] at hb
    obtain rfl | rfl | rfl := hb <;> constructor <;> decide
  have hmemory : ChainWf w [flush, memory] := fun b hb => hchain b (List.mem_of_mem_take (i := 2) hb)
  obtain ⟨most, hsends, hpage, -⟩ :=
    (senders_send w os turns c ⟨true, false, 6, .unset, .set, [10, 11, 12, 5, 6, 7]⟩ [flush, memory, file]
      [{ file with filePos := 8 }] 8 hchain).1 (by decide)
  obtain ⟨most', hsends', hlimit⟩ :=
    (senders_send w os turns c { c with sent := 3, socket := [10, 11, 12] } [flush, memory] [] 8 hmemory).2
      (by decide) (by decide)
  exact ⟨w, os, turns, c, _, [flush, memory, file], _, by decide, rfl, ⟨most, hsends, hpage (by decide)⟩,
    ⟨most', hsends', hlimit (by decide)⟩⟩

end Nginx.Os
