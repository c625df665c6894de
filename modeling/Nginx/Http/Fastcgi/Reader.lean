import Nginx.Library.Stream
import Nginx.Http.Fastcgi

namespace Nginx.Fastcgi

open Stream

-- The input filter as a machine that reads byte after byte. A record that ends the stream closes the machine
-- until the end of the raw buffer.
inductive Reader where
  | version
  | type
  | requestIdHi (kind : UInt8)
  | requestIdLo (kind : UInt8)
  | contentLengthHi (kind : UInt8)
  | contentLengthLo (kind : UInt8) (hi : Nat)
  | paddingLength (kind : UInt8) (length : Nat)
  | reserved (kind : UInt8) (length fill : Nat)
  | content (kind : UInt8) (length fill : Nat)
  | padding (n : Nat)
  | ended
  deriving DecidableEq

def Reader.pad (n : Nat) : Reader := if n = 0 then .version else .padding n

-- At the first byte of a record's data
def Reader.enter (kind : UInt8) (length fill : Nat) : Reader :=
  if length = 0 then if kind = stderr then .version else .pad fill else .content kind length fill

def Reader.step : Reader → UInt8 → Option (Reader × Bytes)
  | .version, ch => if ch = 1 then some (.type, []) else none
  | .type, ch => if ch = stdout ∨ ch = stderr ∨ ch = endRequest then some (.requestIdHi ch, []) else none
  | .requestIdHi kind, ch => if ch = 0 then some (.requestIdLo kind, []) else none
  | .requestIdLo kind, ch => if ch = 1 then some (.contentLengthHi kind, []) else none
  | .contentLengthHi kind, ch => some (.contentLengthLo kind (ch.toNat <<< 8), [])
  | .contentLengthLo kind hi, ch => some (.paddingLength kind (hi ||| ch.toNat), [])
  | .paddingLength kind length, ch => some (.reserved kind length ch.toNat, [])
  | .reserved kind length fill, _ =>
      if kind = stdout ∧ length = 0 then some (.version, [])
      else if kind = endRequest then some (.ended, [])
      else some (.enter kind length fill, [])
  | .content kind length fill, ch =>
      some (if length = 1 then .pad fill else .content kind (length - 1) fill, if kind = stderr then [] else [ch])
  | .padding n, _ => some (.pad (n - 1), [])
  | .ended, _ => some (.ended, [])

def Reader.reopen : Reader → Reader
  | .ended => .version
  | reader => reader

-- What the context stands for
def Ctx.reader (f : Ctx) : State → Reader
  | .version => .version
  | .type => .type
  | .requestIdHi => .requestIdHi f.type
  | .requestIdLo => .requestIdLo f.type
  | .contentLengthHi => .contentLengthHi f.type
  | .contentLengthLo => .contentLengthLo f.type f.length
  | .paddingLength => .paddingLength f.type f.length
  | .reserved => .reserved f.type f.length f.padding
  | .data => .enter f.type f.length f.padding
  | .padding => .pad f.padding

abbrev readAll := feed Reader.step

variable {f f' : Ctx} {rest rest' : Bytes} {p p' : Pipe} {b b' : Bool}

theorem reader_ne_ended (f : Ctx) (state : State) : f.reader state ≠ .ended := by
  cases state <;> simp only [Ctx.reader, Reader.enter, Reader.pad] <;> repeat' split
  all_goals simp

theorem readAll_padding (bs : Bytes) (n : Nat) (h : bs.length ≤ n) :
    readAll (.pad n) bs = some (.pad (n - bs.length), []) := by
  induction bs generalizing n with
  | nil => rfl
  | cons ch bs ih =>
      rw [List.length_cons] at h
      have hstep : Reader.step (.pad n) ch = some (.pad (n - 1), []) := by
        rw [Reader.pad, if_neg (by omega), Reader.step]
      rw [readAll, feed_cons hstep (ih (n - 1) (by omega)), List.append_nil, List.length_cons, Nat.sub_sub, Nat.add_comm 1]

theorem readAll_content (kind : UInt8) (bs : Bytes) (n fill : Nat) (h : bs.length ≤ n) (hn : bs ≠ []) :
    readAll (.content kind n fill) bs =
      some (if bs.length = n then .pad fill else .content kind (n - bs.length) fill,
        if kind = stderr then [] else bs) := by
  induction bs generalizing n with
  | nil => exact absurd rfl hn
  | cons ch bs ih =>
      rw [List.length_cons] at h
      have hstep : Reader.step (.content kind n fill) ch =
          some (if n = 1 then .pad fill else .content kind (n - 1) fill, if kind = stderr then [] else [ch]) := rfl
      cases bs with
      | nil =>
          rw [readAll, feed_one hstep]
          simp only [List.length_cons, List.length_nil, Nat.zero_add, eq_comm]
      | cons next bs =>
          have hpos : 1 < n := by
            rw [List.length_cons] at h
            omega
          rw [if_neg (by omega)] at hstep
          have hrest := ih (n - 1) (by omega) (by simp)
          have hlen : ((next :: bs).length = n - 1) ↔ ((ch :: next :: bs).length = n) := by
            simp only [List.length_cons]
            omega
          have hsub : n - 1 - (next :: bs).length = n - (ch :: next :: bs).length := by
            simp only [List.length_cons]
            omega
          simp only [hlen, hsub] at hrest
          rw [readAll, feed_cons hstep hrest]
          by_cases hkind : kind = stderr
          · simp only [hkind, if_true, List.append_nil]
          · simp only [hkind, if_false, List.cons_append, List.nil_append]

theorem readAll_ended (bs : Bytes) : readAll .ended bs = some (.ended, []) := by
  induction bs with
  | nil => rfl
  | cons ch bs ih => exact feed_cons (t := .ended) (o := []) rfl ih

-- What the byte machine makes of the bytes of a header
def Processed.Reads (reader : Reader) (bs : Bytes) : Processed → Prop
  | .again f => readAll reader bs = some (f.reader f.state, []) ∧ f.state.inHeader = true
  | .error _ => readAll reader bs = none
  | .ok f rest =>
      ∃ hd last, bs = hd ++ last :: rest ∧ f.state = .data ∧
        readAll reader hd = some (.reserved f.type f.length f.padding, [])

theorem Processed.Reads.cons {reader reader' : Reader} {ch : UInt8} {bs : Bytes} {processed : Processed}
    (hstep : reader.step ch = some (reader', [])) (h : processed.Reads reader' bs) :
    processed.Reads reader (ch :: bs) := by
  cases processed with
  | again f => exact ⟨feed_cons hstep h.1, h.2⟩
  | error f => exact feed_cons_none hstep h
  | ok f rest =>
      obtain ⟨hd, last, heq, hstate, hread⟩ := h
      exact ⟨ch :: hd, last, by rw [heq]; rfl, hstate, feed_cons hstep hread⟩

theorem readAll_step_none {reader : Reader} {ch : UInt8} (h : reader.step ch = none) (bs : Bytes) :
    readAll reader (ch :: bs) = none := by
  simp [readAll, feed, h]

theorem processRecord_reads (f : Ctx) (state : State) (hstate : state.inHeader = true) (bs : Bytes) :
    (processRecord f state bs).Reads (f.reader state) bs := by
  induction bs generalizing f state with
  | nil => exact ⟨rfl, hstate⟩
  | cons ch bs ih =>
      cases state with
      | version =>
          rw [processRecord]
          split
          · rename_i hch
            exact readAll_step_none (by rw [Ctx.reader, Reader.step, if_neg hch]) bs
          · rename_i hch
            exact (ih f .type rfl).cons (by rw [Ctx.reader, Reader.step, if_pos (not_not.mp hch)]; rfl)
      | type =>
          rw [processRecord]
          split
          · rename_i hch
            exact (ih { f with type := ch } .requestIdHi rfl).cons (by rw [Ctx.reader, Reader.step, if_pos hch]; rfl)
          · rename_i hch
            exact readAll_step_none (by rw [Ctx.reader, Reader.step, if_neg hch]) bs
      | requestIdHi =>
          rw [processRecord]
          split
          · rename_i hch
            exact readAll_step_none (by rw [Ctx.reader, Reader.step, if_neg hch]) bs
          · rename_i hch
            exact (ih f .requestIdLo rfl).cons (by rw [Ctx.reader, Reader.step, if_pos (not_not.mp hch)]; rfl)
      | requestIdLo =>
          rw [processRecord]
          split
          · rename_i hch
            exact readAll_step_none (by rw [Ctx.reader, Reader.step, if_neg hch]) bs
          · rename_i hch
            exact (ih f .contentLengthHi rfl).cons (by rw [Ctx.reader, Reader.step, if_pos (not_not.mp hch)]; rfl)
      | contentLengthHi => exact (ih { f with length := ch.toNat <<< 8 } .contentLengthLo rfl).cons rfl
      | contentLengthLo => exact (ih { f with length := f.length ||| ch.toNat } .paddingLength rfl).cons rfl
      | paddingLength => exact (ih { f with padding := ch.toNat } .reserved rfl).cons rfl
      | reserved => exact ⟨[], ch, rfl, rfl, rfl⟩
      | data => cases hstate
      | padding => cases hstate

theorem reopen_reader (f : Ctx) : (f.reader f.state).reopen = f.reader f.state := by
  have hne := reader_ne_ended f f.state
  cases hreader : f.reader f.state with
  | ended => exact absurd hreader hne
  | _ => rfl

-- A turn of the loop reads some of the bytes and emits what the byte machine emits for them. The pool gives memory.
def Turn.Follows (reader : Reader) (bs : Bytes) (p : Pipe) : Turn → Prop
  | .next f rest p' _ =>
      ∃ eaten out, bs = eaten ++ rest ∧ readAll reader eaten = some (f.reader f.state, out) ∧
        p'.input.flatten = p.input.flatten ++ out ∧ p'.answers = []
  | .done f p' _ =>
      ∃ reader' out, readAll reader bs = some (reader', out) ∧ reader'.reopen = f.reader f.state ∧
        p'.input.flatten = p.input.flatten ++ out ∧ p'.answers = []
  | .error => readAll reader bs = none

theorem done_follows {reader : Reader} {bs o : Bytes} (h : readAll reader bs = some (f.reader f.state, o))
    (hinput : p'.input.flatten = p.input.flatten ++ o) (hanswers : p'.answers = []) :
    (Turn.done f p' b).Follows reader bs p :=
  ⟨_, o, h, reopen_reader f, hinput, hanswers⟩

theorem skipPadding_follows (hp : p.answers = []) (hstate : f.state = .padding) :
    (skipPadding f rest p b).Follows (f.reader f.state) rest p := by
  have hreader : f.reader f.state = .pad f.padding := by rw [hstate]; rfl
  rw [hreader, skipPadding]
  split
  · rename_i hlt
    refine ⟨rest.take f.padding, [], (List.take_append_drop _ _).symm, ?_, by simp, hp⟩
    have hlen : (rest.take f.padding).length = f.padding := List.length_take_of_le (by omega)
    rw [readAll_padding _ _ (by omega), hlen, Nat.sub_self]
    rfl
  · split
    · rename_i heq
      refine done_follows (o := []) ?_ (by simp) hp
      rw [readAll_padding _ _ (by omega), heq, Nat.sub_self]
      rfl
    · refine done_follows (o := []) ?_ (by simp) hp
      rw [readAll_padding _ _ (by omega), hstate]
      rfl

theorem readStderr_follows (hp : p.answers = []) (hstate : f.state = .data) (htype : f.type = stderr) :
    (readStderr f rest p b).Follows (f.reader f.state) rest p := by
  have hreader : f.reader f.state = .enter f.type f.length f.padding := by rw [hstate]; rfl
  rw [readStderr]
  split
  · rename_i hlength
    have henter : f.reader f.state = .content f.type f.length f.padding := by rw [hreader, Reader.enter, if_neg hlength]
    split
    · rename_i hrest
      rw [hrest]
      exact done_follows (o := []) rfl (by simp) hp
    · rename_i hrest
      split
      · rename_i hle
        have hlen : (rest.take f.length).length = f.length := List.length_take_of_le hle
        have htake : rest.take f.length ≠ [] := by
          intro hnil
          rw [hnil, List.length_nil] at hlen
          exact hlength hlen.symm
        have hread := readAll_content f.type (rest.take f.length) f.length f.padding (by omega) htake
        rw [if_pos hlen, if_pos htype] at hread
        dsimp only
        split
        · rename_i hdrop
          rw [← List.take_append_drop f.length rest, hdrop, List.append_nil, henter]
          exact done_follows (o := []) hread (by simp) hp
        · rw [henter]
          exact ⟨rest.take f.length, [], (List.take_append_drop _ _).symm, hread, by simp, hp⟩
      · rename_i hlt
        have hread := readAll_content f.type rest f.length f.padding (by omega) hrest
        rw [if_neg (by omega), if_pos htype] at hread
        rw [henter]
        refine done_follows (o := []) ?_ (by simp) hp
        rw [hread, hstate, Ctx.reader, Reader.enter, if_neg]
        show f.length - rest.length ≠ 0
        omega
  · rename_i hlength
    refine ⟨[], [], rfl, ?_, by simp, hp⟩
    rw [hreader, Reader.enter, if_pos (not_not.mp hlength), if_pos htype]
    rfl

theorem allocBuf_link (hp : p.answers = []) :
    ∃ p', (allocBuf p).bind allocChainLink = some p' ∧ p'.input = p.input ∧ p'.upstreamDone = p.upstreamDone ∧
      p'.answers = [] := by
  rcases hfree : p.free with _ | free
  · rcases hchain : p.chain with _ | chain
    · exact ⟨p, by simp [allocBuf, allocChainLink, palloc, hfree, hchain, hp], rfl, rfl, hp⟩
    · exact ⟨{ p with chain := chain }, by simp [allocBuf, allocChainLink, palloc, hfree, hchain, hp], rfl, rfl, hp⟩
  · exact ⟨{ p with free := free }, by simp [allocBuf, allocChainLink, hfree], rfl, rfl, hp⟩

theorem readStdout_follows (hp : p.answers = []) (hstate : f.state = .data) (htype : f.type ≠ stderr) :
    (readStdout f rest p b).Follows (f.reader f.state) rest p := by
  have hreader : f.reader f.state = .enter f.type f.length f.padding := by rw [hstate]; rfl
  obtain ⟨p', halloc, hinput, -, hp'⟩ := allocBuf_link hp
  have hover : ∀ g : Ctx, g = (if f.padding ≠ 0 then { f with state := .padding } else { f with state := .version }) →
      g.reader g.state = .pad f.padding := by
    intro g hg
    rw [hg]
    split
    · rfl
    · rename_i hpad
      rw [Reader.pad, if_pos (not_not.mp hpad)]
      rfl
  have hflat : ∀ bs : Bytes, (p'.input ++ [bs]).flatten = p.input.flatten ++ bs := by
    intro bs
    rw [hinput, List.flatten_append, List.flatten_cons, List.flatten_nil, List.append_nil]
  rw [readStdout]
  split
  · rename_i hrest
    rw [hrest]
    exact done_follows (o := []) rfl (by simp) hp
  · rename_i hrest
    simp only [halloc]
    have hwhole : f.length ≤ rest.length → readAll (f.reader f.state) (rest.take f.length) =
        some (.pad f.padding, rest.take f.length) := by
      intro hle
      have hlen : (rest.take f.length).length = f.length := List.length_take_of_le hle
      by_cases hzero : f.length = 0
      · rw [hreader, Reader.enter, if_pos hzero, if_neg htype, hzero, List.take_zero]
        rfl
      · have htake : rest.take f.length ≠ [] := by
          intro hnil
          rw [hnil, List.length_nil] at hlen
          exact hzero hlen.symm
        rw [hreader, Reader.enter, if_neg hzero, readAll_content _ _ _ _ (by omega) htake, if_pos hlen, if_neg htype]
    split
    · rename_i hlt
      refine ⟨rest.take f.length, rest.take f.length, (List.take_append_drop _ _).symm, ?_, hflat _, hp'⟩
      rw [hwhole (by omega), hover _ rfl]
    · split
      · rename_i heq
        have htake : rest.take f.length = rest := List.take_of_length_le (by omega)
        refine done_follows (o := rest) ?_ (by rw [htake]; exact hflat rest) hp'
        have hread := hwhole (by omega)
        rw [htake] at hread
        rw [hread, hover _ rfl]
      · have htake : rest.take f.length = rest := List.take_of_length_le (by omega)
        refine done_follows (o := rest) ?_ (by rw [htake]; exact hflat rest) hp'
        have hread := readAll_content f.type rest f.length f.padding (by omega) hrest
        rw [if_neg (by omega), if_neg htype] at hread
        rw [hreader, Reader.enter, if_neg (by omega), hread, hstate, Ctx.reader, Reader.enter, if_neg]
        show f.length - rest.length ≠ 0
        omega

theorem readData_follows (hp : p.answers = []) (hstate : f.state.inHeader = false) :
    (readData f rest p b).Follows (f.reader f.state) rest p := by
  rw [readData]
  split
  · rename_i hpadding
    exact skipPadding_follows hp hpadding
  · rename_i hpadding
    have hdata : f.state = .data := by
      cases hf : f.state with
      | data => rfl
      | padding => exact absurd hf hpadding
      | _ =>
          rw [hf] at hstate
          cases hstate
    split
    · rename_i htype
      exact readStderr_follows hp hdata htype
    · rename_i htype
      exact readStdout_follows hp hdata htype

-- What is read in front of a turn goes with it.
theorem Turn.Follows.prepend {reader reader' : Reader} {eaten bs : Bytes} {turn : Turn}
    (hread : readAll reader eaten = some (reader', [])) (h : turn.Follows reader' bs p) :
    turn.Follows reader (eaten ++ bs) p := by
  cases turn with
  | next f rest p' b =>
      obtain ⟨more, out, rfl, hmore, hinput, hp⟩ := h
      exact ⟨eaten ++ more, out, by rw [List.append_assoc], feed_append hread hmore, hinput, hp⟩
  | done f p' b =>
      obtain ⟨last, out, hlast, hreopen, hinput, hp⟩ := h
      exact ⟨last, out, feed_append hread hlast, hreopen, hinput, hp⟩
  | error => exact feed_append_none hread h

theorem turn_follows (hp : p.answers = []) : (turn f rest p b).Follows (f.reader f.state) rest p := by
  rw [turn]
  split
  · rename_i hstate
    have hreads := processRecord_reads f f.state hstate rest
    split
    · rename_i g hprocessed
      rw [hprocessed] at hreads
      exact done_follows (o := []) hreads.1 (by simp) hp
    · rename_i g hprocessed
      rw [hprocessed] at hreads
      exact hreads
    · rename_i g bs hprocessed
      rw [hprocessed] at hreads
      obtain ⟨hd, last, heq, hdata, hread⟩ := hreads
      have hrest : rest = (hd ++ [last]) ++ bs := by rw [heq]; simp
      split
      · rename_i hempty
        have hstep : Reader.step (.reserved g.type g.length g.padding) last = some (.version, []) := by
          rw [Reader.step, if_pos hempty]
        exact ⟨hd ++ [last], [], hrest, feed_append hread (feed_one hstep), by simp, hp⟩
      · rename_i hempty
        split
        · rename_i hend
          have hstep : Reader.step (.reserved g.type g.length g.padding) last = some (.ended, []) := by
            rw [Reader.step, if_neg hempty, if_pos hend]
          refine ⟨.ended, [], ?_, rfl, by simp, hp⟩
          rw [hrest]
          exact feed_append (feed_append hread (feed_one hstep)) (readAll_ended bs)
        · rename_i hend
          have hstep : Reader.step (.reserved g.type g.length g.padding) last = some (g.reader g.state, []) := by
            rw [Reader.step, if_neg hempty, if_neg hend, hdata]
            rfl
          rw [hrest]
          exact (readData_follows hp (by rw [hdata]; rfl)).prepend (feed_append hread (feed_one hstep))
  · rename_i hstate
    exact readData_follows hp (by simpa using hstate)

def State.rank : State → Nat
  | .data => 2
  | .padding => 1
  | _ => 0

-- Every turn that goes on reads a byte or leaves the data or the padding of a record.
def Turn.Shorter (n : Nat) : Turn → Prop
  | .next f rest _ _ => 3 * rest.length + f.state.rank < n
  | _ => True

theorem readData_shorter (hstate : f.state.inHeader = false) :
    (readData f rest p b).Shorter (3 * rest.length + f.state.rank) := by
  have hversion : State.version.rank = 0 := rfl
  have hpad : State.padding.rank = 1 := rfl
  rw [readData]
  split
  · rename_i hpadding
    rw [skipPadding, hpadding]
    split
    · simp only [Turn.Shorter, List.length_drop, hversion, hpad]
      omega
    · split <;> trivial
  · rename_i hpadding
    have hdata : f.state.rank = 2 := by
      cases hf : f.state with
      | data => rfl
      | padding => exact absurd hf hpadding
      | _ =>
          rw [hf] at hstate
          cases hstate
    split
    · rw [readStderr]
      split
      · split
        · trivial
        · split
          · dsimp only
            split
            · trivial
            · simp only [Turn.Shorter, List.length_drop, hpad, hdata]
              omega
          · trivial
      · simp only [Turn.Shorter, hversion, hdata]
        omega
    · rw [readStdout]
      split
      · trivial
      · split
        · trivial
        · dsimp only
          split
          · simp only [Turn.Shorter, List.length_drop, hdata]
            split <;> simp only [hpad, hversion] <;> omega
          · split <;> trivial

theorem turn_shorter (f : Ctx) (rest : Bytes) (p : Pipe) (b : Bool) :
    (turn f rest p b).Shorter (3 * rest.length + f.state.rank) := by
  rw [turn]
  split
  · rename_i hstate
    have hreads := processRecord_reads f f.state hstate rest
    split
    · trivial
    · trivial
    · rename_i g bs hprocessed
      rw [hprocessed] at hreads
      obtain ⟨hd, last, heq, hdata, -⟩ := hreads
      have hlen : bs.length + 1 ≤ rest.length := by
        rw [heq, List.length_append, List.length_cons]
        omega
      split
      · simp only [Turn.Shorter, State.rank]
        omega
      · split
        · trivial
        · have hshorter : (readData g bs p b).Shorter (3 * bs.length + g.state.rank) :=
            readData_shorter (by rw [hdata]; rfl)
          rw [hdata] at hshorter
          cases hnext : readData g bs p b with
          | next h more q c =>
              rw [hnext] at hshorter
              simp only [Turn.Shorter, State.rank] at hshorter ⊢
              omega
          | done h q c => trivial
          | error => trivial
  · rename_i hstate
    exact readData_shorter (by simpa using hstate)

-- What the byte machine makes of a raw buffer, or of several
def Follows (read : Option (Reader × Bytes)) (p : Pipe) : Option Outcome → Prop
  | none => False
  | some .error => read = none
  | some (.ok f p') =>
      ∃ out, read = some (f.reader f.state, out) ∧ p'.input.flatten = p.input.flatten ++ out ∧ p'.answers = []

def reopened (read : Option (Reader × Bytes)) : Option (Reader × Bytes) := read.map fun r => (r.1.reopen, r.2)

-- What was read and emitted before goes with it.
theorem Follows.prepend {read : Option (Reader × Bytes)} {q : Pipe} {out : Bytes} {outcome : Option Outcome}
    (hinput : q.input.flatten = p.input.flatten ++ out) (h : Follows read q outcome) :
    Follows (read.map fun r => (r.1, out ++ r.2)) p outcome := by
  match outcome, h with
  | some .error, hnone =>
      show read.map _ = none
      rw [show read = none from hnone]
      rfl
  | some (.ok f p'), ⟨outs, hread, hinput', hp'⟩ =>
      exact ⟨out ++ outs, by rw [hread]; rfl, by rw [hinput', hinput, List.append_assoc], hp'⟩

theorem loop_follows (fuel : Nat) (f : Ctx) (rest : Bytes) (p : Pipe) (b : Bool) (hp : p.answers = [])
    (hfuel : 3 * rest.length + f.state.rank < fuel) :
    Follows (reopened (readAll (f.reader f.state) rest)) p (loop fuel f rest p b) := by
  induction fuel generalizing f rest p b with
  | zero => omega
  | succ fuel ih =>
      have hturn : (turn f rest p b).Follows (f.reader f.state) rest p := turn_follows hp
      have hshorter := turn_shorter f rest p b
      rw [loop]
      cases hnext : turn f rest p b with
      | next g more q c =>
          rw [hnext] at hturn hshorter
          obtain ⟨eaten, out, rfl, hread, hinput, hq⟩ := hturn
          simp only [Turn.Shorter] at hshorter
          have hloop := (ih g more q c hq (by omega)).prepend hinput
          have hmap : reopened (readAll (f.reader f.state) (eaten ++ more)) =
              (reopened (readAll (g.reader g.state) more)).map fun r => (r.1, out ++ r.2) := by
            rw [readAll, feed_append_map hread, reopened, reopened, Option.map_map, Option.map_map]
            rfl
          rw [hmap]
          exact hloop
      | done g q c =>
          rw [hnext] at hturn
          obtain ⟨reader, out, hread, hreopen, hinput, hq⟩ := hturn
          have hreopened : reopened (readAll (f.reader f.state) rest) = some (g.reader g.state, out) := by
            rw [hread, ← hreopen]
            rfl
          cases c with
          | true => exact ⟨out, hreopened, hinput, hq⟩
          | false =>
              rcases hchain : q.chain with _ | chain
              · simp only [addFreeBuf, allocChainLink, hchain, palloc, hq]
                exact ⟨out, hreopened, hinput, hq⟩
              · simp only [addFreeBuf, allocChainLink, hchain]
                exact ⟨out, hreopened, hinput, hq⟩
      | error =>
          rw [hnext] at hturn
          show reopened (readAll (f.reader f.state) rest) = none
          rw [show readAll (f.reader f.state) rest = none from hturn]
          rfl

theorem inputFilter_follows (f : Ctx) (buf : Bytes) (hp : p.answers = []) :
    Follows (reopened (readAll (f.reader f.state) buf)) p (inputFilter f buf p) := by
  rw [inputFilter]
  split
  · rename_i hbuf
    refine ⟨[], ?_, by simp, hp⟩
    rw [hbuf]
    show some ((f.reader f.state).reopen, []) = _
    rw [reopen_reader]
  · apply loop_follows _ _ _ _ _ hp
    have hrank : f.state.rank ≤ 2 := by cases f.state <;> decide
    omega

theorem inputFilters_follows (f : Ctx) (bufs : List Bytes) (hp : p.answers = []) :
    Follows (feedPieces Reader.step Reader.reopen (f.reader f.state) bufs) p (inputFilters f bufs p) := by
  induction bufs generalizing f p with
  | nil => exact ⟨[], rfl, by simp, hp⟩
  | cons buf bufs ih =>
      have hfirst := inputFilter_follows f buf hp
      rw [inputFilters]
      rcases hread : readAll (f.reader f.state) buf with _ | ⟨reader, out⟩
      · rw [hread] at hfirst
        rw [feedPieces_none hread]
        rcases hfilter : inputFilter f buf p with _ | _ | ⟨g, q⟩
        · rw [hfilter] at hfirst
          exact hfirst.elim
        · exact rfl
        · rw [hfilter] at hfirst
          obtain ⟨out, hnone, -⟩ := hfirst
          cases hnone
      · rw [hread] at hfirst
        rw [feedPieces_cons hread]
        rcases hfilter : inputFilter f buf p with _ | _ | ⟨g, q⟩
        · rw [hfilter] at hfirst
          exact hfirst.elim
        · rw [hfilter] at hfirst
          cases hfirst
        · rw [hfilter] at hfirst
          obtain ⟨out', hreopened, hinput, hq⟩ := hfirst
          simp only [reopened, Option.map_some, Option.some.injEq, Prod.mk.injEq] at hreopened
          obtain ⟨hreader, rfl⟩ := hreopened
          rw [hreader]
          exact (ih g hq).prepend hinput

end Nginx.Fastcgi
