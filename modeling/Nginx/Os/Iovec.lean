import Nginx.Core.Buf

namespace Nginx.Os

open ByteMemory

-- ngx_connection_tcp_nodelay_e and ngx_connection_tcp_nopush_e
inductive TcpOption where
  | unset
  | set
  | disabled
  deriving DecidableEq, Repr

-- What a sender reads and writes of ngx_connection_t and of its write event; socket holds what the kernel has accepted.
structure Connection where
  ready : Bool
  error : Bool
  sent : Nat
  tcpNodelay : TcpOption
  tcpNopush : TcpOption
  socket : Bytes
  deriving DecidableEq, Repr

-- The results of writev and sendfile, and those of setsockopt
inductive Answer where
  | count (n : Nat)
  | again
  | intr
  | error
  deriving DecidableEq, Repr

inductive Setsockopt where
  | done
  | intr
  | error
  deriving DecidableEq, Repr

-- What the system answers in one turn of a sender's loop; pushes is how many iovecs ngx_array_push finds room for.
structure Turn where
  pushes : Nat
  nodelay : Setsockopt
  nopush : Setsockopt
  call : Answer
  deriving DecidableEq, Repr

structure Iov where
  base : Nat
  len : Nat
  deriving DecidableEq, Repr

-- NGX_CHAIN_ERROR, and a write through iov while it is NULL
inductive Failure where
  | chainError
  | fault
  deriving DecidableEq, Repr

-- running: the turns ended before the sender did
inductive Outcome where
  | returned (c : Connection) (chain : Chain)
  | failed (f : Failure) (c : Connection)
  | running
  deriving DecidableEq, Repr

-- What the loop over the iovecs makes of a buf that is not special
inductive Look where
  | take
  | stop
  | error
  deriving DecidableEq, Repr

-- The iovecs, the last one first, the counter send, and where cl stands
structure Gathered where
  header : List Iov
  send : Nat
  cl : Chain
  deriving DecidableEq, Repr

def pushIov (pushes : Nat) (header : List Iov) (prev pos size : Nat) : Except Failure (List Iov) :=
  if prev = pos then
    match header with
    | [] => .error .fault
    | iov :: iovs => .ok ({ iov with len := iov.len + size } :: iovs)
  else if header.length < pushes then .ok (⟨pos, size⟩ :: header)
  else .error .chainError

def cutSize (limit send size : Nat) : Nat := if limit < send + size then limit - send else size

-- "create the iovec and coalesce the neighbouring bufs"
def gather (look : Buf → Look) (iovMax pushes limit : Nat) :
    Chain → List Iov → Nat → Nat → Except Failure Gathered
  | [], header, _, send => .ok ⟨header, send, []⟩
  | b :: cl, header, prev, send =>
    if header.length < iovMax ∧ send < limit then
      if b.special then gather look iovMax pushes limit cl header prev send
      else
        match look b with
        | .error => .error .chainError
        | .stop => .ok ⟨header, send, b :: cl⟩
        | .take =>
          let size := cutSize limit send (b.last - b.pos)
          match pushIov pushes header prev b.pos size with
          | .error f => .error f
          | .ok header => gather look iovMax pushes limit cl header (b.pos + size) (send + size)
    else .ok ⟨header, send, b :: cl⟩

-- The loop that moves the bufs over what was sent: the bufs it passed, and where cl stands.
-- pass is for a buf that was sent whole, cut for the one that was sent in part.
def update (size : Buf → Nat) (pass : Buf → Buf) (cut : Nat → Buf → Buf) : Chain → Nat → Chain × Chain
  | [], _ => ([], [])
  | b :: cl, sent =>
    if b.special then
      let (passed, rest) := update size pass cut cl sent
      (b :: passed, rest)
    else if sent = 0 then ([], b :: cl)
    else if size b ≤ sent then
      let (passed, rest) := update size pass cut cl (sent - size b)
      (pass b :: passed, rest)
    else ([], cut sent b :: cl)

def iovBytes (mem : Memory) (header : List Iov) : Bytes := header.reverse.flatMap fun iov => load mem iov.base iov.len

-- How much of what a call was given the kernel takes
def Answer.accepted (a : Answer) (given : Bytes) : Bytes :=
  match a with
  | .count n => given.take n
  | _ => []

-- c->sent += sent
def Connection.accept (c : Connection) (bytes : Bytes) : Connection :=
  { c with sent := c.sent + bytes.length, socket := c.socket ++ bytes }

@[simp] theorem Connection.accept_sent (c : Connection) (bytes : Bytes) :
    (c.accept bytes).sent = c.sent + bytes.length := rfl

@[simp] theorem Connection.accept_socket (c : Connection) (bytes : Bytes) :
    (c.accept bytes).socket = c.socket ++ bytes := rfl

-- What follows a call: complete tells whether all that was tried was sent
inductive Step where
  | done (o : Outcome)
  | next (c : Connection) (chain : Chain) (complete : Bool)
  deriving DecidableEq, Repr

def settle (size : Buf → Nat) (pass : Buf → Buf) (cut : Nat → Buf → Buf) (limit : Nat) (call : Answer)
    (given : Bytes) (c : Connection) (chain : Chain) (prevSend send : Nat) (complete : Bool) : Step :=
  if call = .error then .done (.failed .chainError { c with error := true })
  else
    let bytes := call.accepted given
    let complete := complete || send - prevSend == bytes.length
    let (passed, rest) := update size pass cut chain bytes.length
    let c := c.accept bytes
    if call = .intr then .next c (passed ++ rest) complete
    else if !complete then .done (.returned { c with ready := false } rest)
    else if limit ≤ send ∨ rest = [] then .done (.returned c rest)
    else .next c rest complete

theorem accepted_take (a : Answer) (given : Bytes) : ∃ n, n ≤ given.length ∧ a.accepted given = given.take n := by
  cases a with
  | count n =>
      refine ⟨min n given.length, Nat.min_le_right n _, ?_⟩
      rw [Answer.accepted, ← List.take_eq_take_min]
  | again => exact ⟨0, Nat.zero_le _, rfl⟩
  | intr => exact ⟨0, Nat.zero_le _, rfl⟩
  | error => exact ⟨0, Nat.zero_le _, rfl⟩

section

variable {w : World} {header : List Iov} {prev : Nat}

-- prev is where the last iovec ends.
def Adjacent (header : List Iov) (prev : Nat) : Prop :=
  ∀ iov iovs, header = iov :: iovs → prev = iov.base + iov.len

theorem iovBytes_cons (mem : Memory) (iov : Iov) (header : List Iov) :
    iovBytes mem (iov :: header) = iovBytes mem header ++ load mem iov.base iov.len := by
  rw [iovBytes, List.reverse_cons, List.flatMap_append, List.flatMap_singleton]
  rfl

theorem pushIov_spec {pushes pos size : Nat} {header' : List Iov} (hadjacent : Adjacent header prev)
    (h : pushIov pushes header prev pos size = .ok header') :
    iovBytes w.mem header' = iovBytes w.mem header ++ load w.mem pos size ∧
      Adjacent header' (pos + size) ∧ header' ≠ [] := by
  unfold pushIov at h
  split at h
  · rename_i hpos
    cases header with
    | nil => cases h
    | cons iov iovs =>
        have hend := hadjacent iov iovs rfl
        cases h
        refine ⟨?_, ?_, List.cons_ne_nil _ _⟩
        · rw [iovBytes_cons, iovBytes_cons, load_append, List.append_assoc, ← hend, hpos]
        · intro _ _ heq
          cases heq
          show pos + size = iov.base + (iov.len + size)
          omega
  · split at h
    · cases h
      refine ⟨iovBytes_cons w.mem _ header, ?_, List.cons_ne_nil _ _⟩
      intro _ _ heq
      cases heq
      rfl
    · cases h

variable {look : Buf → Look} {iovMax pushes limit : Nat}

theorem cutSize_spec (size : Nat) {send : Nat} (h : send < limit) :
    cutSize limit send size ≤ size ∧ send + cutSize limit send size ≤ limit ∧
      (cutSize limit send size = size ∨ limit ≤ send + cutSize limit send size) := by
  unfold cutSize
  split <;> omega

-- One turn of the loop over the iovecs
theorem gather_cons {b : Buf} {cl : Chain} {send : Nat} {g : Gathered}
    (h : gather look iovMax pushes limit (b :: cl) header prev send = .ok g) :
    g = ⟨header, send, b :: cl⟩ ∨
    (b.special = true ∧ gather look iovMax pushes limit cl header prev send = .ok g) ∨
    (b.special = false ∧ look b = .take ∧ ∃ size header', size ≤ b.last - b.pos ∧ send + size ≤ limit ∧
      (size = b.last - b.pos ∨ limit ≤ send + size) ∧ pushIov pushes header prev b.pos size = .ok header' ∧
      gather look iovMax pushes limit cl header' (b.pos + size) (send + size) = .ok g) := by
  rw [gather] at h
  split at h
  · rename_i hroom
    split at h
    · rename_i hspecial
      exact Or.inr (Or.inl ⟨hspecial, h⟩)
    · rename_i hspecial
      rw [Bool.not_eq_true] at hspecial
      split at h
      · cases h
      · cases h
        exact Or.inl rfl
      · rename_i hlook
        dsimp only at h
        split at h
        · cases h
        · rename_i header' hpush
          obtain ⟨hsize, hlimit, hwhole⟩ := cutSize_spec (b.last - b.pos) hroom.2
          exact Or.inr (Or.inr ⟨hspecial, hlook, _, header', hsize, hlimit, hwhole, hpush, h⟩)
  · cases h
    exact Or.inl rfl

theorem gather_full {chain : Chain} {send : Nat} {g : Gathered} (hfull : limit ≤ send)
    (h : gather look iovMax pushes limit chain header prev send = .ok g) : g = ⟨header, send, chain⟩ := by
  cases chain with
  | nil =>
      cases h
      rfl
  | cons b cl =>
      rw [gather, if_neg (by omega)] at h
      cases h
      rfl

theorem gather_send_le {chain : Chain} {send : Nat} {g : Gathered} (hsend : send ≤ limit)
    (h : gather look iovMax pushes limit chain header prev send = .ok g) : g.send ≤ limit := by
  induction chain generalizing header prev send with
  | nil =>
      cases h
      exact hsend
  | cons b cl ih =>
      obtain rfl | ⟨-, htail⟩ | ⟨-, -, size, header', -, hle, -, -, htail⟩ := gather_cons h
      · exact hsend
      · exact ih hsend htail
      · exact ih hle htail

-- What the loop over the iovecs needs of a buf: what it takes is in memory.
structure Gatherable (w : World) (look : Buf → Look) (b : Buf) : Prop where
  special : b.special = true → b.bytes w = []
  take : b.special = false → look b = .take → b.bytes w = load w.mem b.pos (b.last - b.pos)

-- The iovecs describe the first bytes of the chain, as many as send has grown by.
theorem gather_spec {chain : Chain} (hchain : ∀ b ∈ chain, Gatherable w look b) {send : Nat} {g : Gathered}
    (hadjacent : Adjacent header prev)
    (h : gather look iovMax pushes limit chain header prev send = .ok g) :
    ∃ n, n ≤ (chainBytes w chain).length ∧ g.send = send + n ∧
      iovBytes w.mem g.header = iovBytes w.mem header ++ (chainBytes w chain).take n := by
  induction chain generalizing header prev send with
  | nil =>
      cases h
      exact ⟨0, Nat.le_refl 0, rfl, (List.append_nil _).symm⟩
  | cons b cl ih =>
      have hb := hchain b List.mem_cons_self
      have hcl := fun c hc => hchain c (List.mem_cons_of_mem b hc)
      obtain rfl | ⟨hspecial, htail⟩ | ⟨hspecial, hlook, size, header', hsize, hlimit, hwhole, hpush, htail⟩ :=
        gather_cons h
      · exact ⟨0, Nat.zero_le _, rfl, (List.append_nil _).symm⟩
      · obtain ⟨n, hn, hsend, hbytes⟩ := ih hcl hadjacent htail
        rw [chainBytes_cons, hb.special hspecial, List.nil_append]
        exact ⟨n, hn, hsend, hbytes⟩
      · have hload := hb.take hspecial hlook
        have hlen : (b.bytes w).length = b.last - b.pos := by rw [hload, load_length]
        obtain ⟨hiov, hadjacent', -⟩ := pushIov_spec (w := w) hadjacent hpush
        rw [chainBytes_cons]
        by_cases hcut : size = b.last - b.pos
        · obtain ⟨n, hn, hsend, hbytes⟩ := ih hcl hadjacent' htail
          refine ⟨size + n, ?_, by omega, ?_⟩
          · rw [List.length_append]
            omega
          · have htake : (b.bytes w).take (size + n) = b.bytes w := List.take_of_length_le (by omega)
            rw [hbytes, hiov, List.append_assoc, List.take_append, htake, hlen, hload, hcut, Nat.add_sub_cancel_left]
        · -- the limit cuts this buf, and nothing is taken after it
          have hg := gather_full (hwhole.resolve_left hcut) htail
          subst hg
          refine ⟨size, ?_, rfl, ?_⟩
          · rw [List.length_append]
            omega
          · rw [hiov, List.take_append_of_le_length (by omega), hload, load_take _ _ _ _ hsize]

-- When no iovec was made, only specials were passed.
theorem gather_none {chain : Chain} (hchain : ∀ b ∈ chain, Gatherable w look b) {send : Nat} {g : Gathered}
    (hadjacent : Adjacent header prev)
    (h : gather look iovMax pushes limit chain header prev send = .ok g) (hnone : g.header = []) :
    header = [] ∧ g.send = send ∧ chainBytes w g.cl = chainBytes w chain ∧ g.cl ⊆ chain := by
  induction chain generalizing header prev send with
  | nil =>
      cases h
      exact ⟨hnone, rfl, rfl, List.Subset.refl _⟩
  | cons b cl ih =>
      have hcl := fun c hc => hchain c (List.mem_cons_of_mem b hc)
      obtain rfl | ⟨hspecial, htail⟩ | ⟨hspecial, hlook, size, header', hsize, hlimit, hwhole, hpush, htail⟩ :=
        gather_cons h
      · exact ⟨hnone, rfl, rfl, List.Subset.refl _⟩
      · obtain ⟨hheader, hsend, hbytes, hsub⟩ := ih hcl hadjacent htail
        rw [chainBytes_cons, (hchain b List.mem_cons_self).special hspecial, List.nil_append]
        exact ⟨hheader, hsend, hbytes, List.subset_cons_of_subset b hsub⟩
      · obtain ⟨-, hadjacent', hne⟩ := pushIov_spec (w := w) hadjacent hpush
        exact absurd (ih hcl hadjacent' htail).1 hne

variable {size : Buf → Nat} {cut : Nat → Buf → Buf}

-- What the loop over the sent bytes needs of the bufs: kept is what holds of them before it and after it.
structure Updatable (w : World) (size : Buf → Nat) (cut : Nat → Buf → Buf) (kept : Buf → Prop) : Prop where
  special : ∀ b, kept b → b.special = true → b.bytes w = []
  size : ∀ b, kept b → b.special = false → size b = (b.bytes w).length
  cut : ∀ b n, kept b → b.special = false → n ≤ (b.bytes w).length →
    kept (cut n b) ∧ (cut n b).bytes w = (b.bytes w).drop n

-- cl stands where the bytes that were not sent begin.
theorem update_spec {kept : Buf → Prop} (pass : Buf → Buf) (hupdatable : Updatable w size cut kept) {chain : Chain} {sent : Nat}
    (hchain : ∀ b ∈ chain, kept b) (hsent : sent ≤ (chainBytes w chain).length) :
    chainBytes w (update size pass cut chain sent).2 = (chainBytes w chain).drop sent ∧
      ∀ b ∈ (update size pass cut chain sent).2, kept b := by
  induction chain generalizing sent with
  | nil =>
      refine ⟨List.drop_nil.symm, ?_⟩
      intro b hb
      cases hb
  | cons b cl ih =>
      have hb := hchain b List.mem_cons_self
      have hcl := fun c hc => hchain c (List.mem_cons_of_mem b hc)
      rw [chainBytes_cons, List.length_append] at hsent
      rw [chainBytes_cons, update]
      cases hspecial : b.special with
      | true =>
          have hbytes := hupdatable.special b hb hspecial
          rw [hbytes, List.length_nil, Nat.zero_add] at hsent
          rw [hbytes, List.nil_append]
          exact ih hcl hsent
      | false =>
          have hsize := hupdatable.size b hb hspecial
          simp only [Bool.false_eq_true, if_false]
          split
          · rename_i hzero
            subst hzero
            exact ⟨rfl, hchain⟩
          · split
            · rename_i hle
              rw [hsize] at hle
              rw [List.drop_append, List.drop_of_length_le hle, List.nil_append, ← hsize]
              exact ih hcl (by omega)
            · rename_i hlt
              obtain ⟨hkept, hbytes⟩ := hupdatable.cut b sent hb hspecial (by omega)
              rw [chainBytes_cons, hbytes, List.drop_append_of_le_length (by omega)]
              exact ⟨rfl, List.forall_mem_cons.mpr ⟨hkept, hcl⟩⟩

-- An interrupted call leaves the chain as it was.
theorem update_zero (pass : Buf → Buf) (chain : Chain) :
    (update size pass cut chain 0).1 ++ (update size pass cut chain 0).2 = chain := by
  induction chain with
  | nil => rfl
  | cons b cl ih =>
      rw [update]
      split
      · rw [List.cons_append, ih]
      · rfl

-- The kernel has got the first bytes of the chain, at most so many, and rest holds the others.
def Sends (w : World) (c : Connection) (chain : Chain) (c' : Connection) (rest : Chain) (most : Nat) : Prop :=
  ∃ bytes, bytes ++ chainBytes w rest = chainBytes w chain ∧ c'.socket = c.socket ++ bytes ∧
    c'.sent = c.sent + bytes.length ∧ bytes.length ≤ most

theorem Sends.none (w : World) (c : Connection) (chain : Chain) (most : Nat) : Sends w c chain c chain most :=
  ⟨[], rfl, (List.append_nil _).symm, rfl, Nat.zero_le most⟩

theorem Sends.trans {c c' c'' : Connection} {chain chain' chain'' : Chain} {m n : Nat}
    (h : Sends w c chain c' chain' m) (h' : Sends w c' chain' c'' chain'' n) :
    Sends w c chain c'' chain'' (m + n) := by
  obtain ⟨bytes, hbytes, hsocket, hsent, hmost⟩ := h
  obtain ⟨bytes', hbytes', hsocket', hsent', hmost'⟩ := h'
  refine ⟨bytes ++ bytes', ?_, ?_, ?_, ?_⟩
  · rw [List.append_assoc, hbytes', hbytes]
  · rw [hsocket', hsocket, List.append_assoc]
  · rw [hsent', hsent, List.length_append, Nat.add_assoc]
  · rw [List.length_append]
    omega

theorem Sends.mono {c c' : Connection} {chain rest : Chain} {m n : Nat} (h : Sends w c chain c' rest m) (hle : m ≤ n) :
    Sends w c chain c' rest n := by
  obtain ⟨bytes, hbytes, hsocket, hsent, hmost⟩ := h
  exact ⟨bytes, hbytes, hsocket, hsent, Nat.le_trans hmost hle⟩

-- One turn of a sender, ended or to be followed by another
def Step.Sends (w : World) (kept : Buf → Prop) (c : Connection) (chain : Chain) (most : Nat) : Step → Prop
  | .done (.returned c' rest) => Os.Sends w c chain c' rest most
  | .done _ => True
  | .next c' chain' _ => Os.Sends w c chain c' chain' most ∧ ∀ b ∈ chain', kept b

-- One call, whatever the kernel takes of it
theorem settle_spec {kept : Buf → Prop} (pass : Buf → Buf) (hupdatable : Updatable w size cut kept) {chain : Chain}
    (hchain : ∀ b ∈ chain, kept b) (call : Answer) {given : Bytes} (c : Connection) (prevSend send : Nat)
    (complete : Bool) {n : Nat} (hn : n ≤ (chainBytes w chain).length) (hgiven : given = (chainBytes w chain).take n) :
    (settle size pass cut limit call given c chain prevSend send complete).Sends w kept c chain n := by
  obtain ⟨m, hm, hbytes⟩ := accepted_take call given
  have htake : given.take m = (chainBytes w chain).take m := by
    rw [hgiven, List.length_take] at hm
    rw [hgiven, List.take_take, Nat.min_eq_left (by omega)]
  have hlen : (call.accepted given).length = m := by
    rw [hbytes, List.length_take, Nat.min_eq_left hm]
  have hmn : m ≤ n := by
    rw [hgiven, List.length_take] at hm
    omega
  obtain ⟨hrest, hkept⟩ := update_spec pass hupdatable hchain (Nat.le_trans hmn hn)
  have hsends : Sends w c chain (c.accept (call.accepted given)) (update size pass cut chain m).2 n := by
    refine ⟨call.accepted given, ?_, rfl, rfl, by omega⟩
    rw [hbytes, htake, hrest, List.take_append_drop]
  unfold settle
  split
  · trivial
  · dsimp only
    rw [hlen]
    split
    · rename_i hintr
      -- nothing was sent, and the chain is taken again from its start
      have hzero : m = 0 := by
        rw [← hlen, hintr]
        rfl
      subst hzero
      simp only [update_zero]
      rw [hintr]
      exact ⟨⟨[], rfl, rfl, rfl, Nat.zero_le n⟩, hchain⟩
    · split
      · exact hsends
      · split
        · exact hsends
        · exact ⟨hsends, hkept⟩

end

end Nginx.Os
