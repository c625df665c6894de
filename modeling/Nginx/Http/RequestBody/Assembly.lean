import Nginx.Http.RequestBody

namespace Nginx.RequestBody

-- What stays the same while the rest of a body is read: the bytes behind the header, how many of them are the body, how
-- many the buffers have to take, and what r->header_in, the flags, the chain and the buffer are.
structure Task where
  whole : Bytes
  total : Int
  first : Int
  header : Bytes
  single : Bool
  fileOnly : Bool
  bufs : List Link
  size : Nat

-- The chain loses the pre-read part: nothing was written when its first buf is taken off.
def Task.Loses (t : Task) : Prop :=
  t.bufs = [.preread, .buf] ∧ t.single = true ∧ t.fileOnly = false ∧ t.first ≤ t.size

def saved (b : Body) : Bytes := b.tempFile.getD []

-- Where the bytes read so far are
inductive Holds (t : Task) (b : Body) (read : Bytes) : Prop
  | alone : b.bufs = [.buf] → b.toWrite = [.buf] → saved b ++ b.buf = read → Holds t b read
  | unwritten : b.bufs = [.preread, .buf] → (t.fileOnly || t.single) = true → b.toWrite = [.preread, .buf] →
      b.tempFile = none → b.preread ≠ [] → b.buf.length + b.rest = t.first → b.preread ++ b.buf = read →
      Holds t b read
  | written : b.bufs = [.preread, .buf] → (t.fileOnly || t.single) = true → b.toWrite = [.buf] →
      b.tempFile ≠ none → (b.size : Int) < t.first → saved b ++ b.buf = read → Holds t b read
  | behind : b.bufs = [.preread, .buf] → (t.fileOnly || t.single) = false → b.toWrite = [.buf] →
      b.preread ++ (saved b ++ b.buf) = read → Holds t b read

structure Kept (t : Task) (r : Request) (b : Body) (input : Bytes) : Prop where
  header : r.headerIn = t.header
  single : r.inSingleBuf = t.single
  fileOnly : r.inFileOnly = t.fileOnly
  bufs : b.bufs = t.bufs
  size : b.size = t.size
  fits : b.buf.length ≤ b.size
  rest : 0 ≤ b.rest
  held : ∃ read, t.whole = read ++ input ∧ (read.length : Int) + b.rest = t.total ∧ Holds t b read

-- The request as post_handler finds it
def Final (t : Task) (r : Request) : Prop :=
  r.headerIn = t.header ∧ (bodyData r = t.whole.take t.total.toNat ↔ ¬t.Loses)

variable {disk : Nat → Bool} {t : Task} {r : Request} {b b' : Body} {input read : Bytes}

theorem writeRequestBody_eq_some (chain : List Link) (h : writeRequestBody disk b chain = some b') :
    b' = { b with tempFile := some (saved b ++ chainData b chain) } := by
  simp only [writeRequestBody] at h
  split at h
  · exact (Option.some.inj h).symm
  · cases h

theorem makeRoom_cases (h : makeRoom disk b = some b') :
    b' = b ∨ b.buf.length = b.size ∧
      b' = { b with
        tempFile := some (saved b ++ chainData b b.toWrite), toWrite := nextOrBufs b.bufs, buf := [] } := by
  simp only [makeRoom] at h
  split at h
  · rename_i hfull
    obtain ⟨written, hwritten, rfl⟩ := Option.map_eq_some_iff.mp h
    rw [writeRequestBody_eq_some b.toWrite hwritten]
    exact Or.inr ⟨hfull, rfl⟩
  · exact Or.inl (Option.some.inj h).symm

-- What is written stands in the file behind what was written before.
theorem Holds.flush (h : Holds t b read) (hfull : b.buf.length = b.size) (hrest : 0 < b.rest) :
    Holds t { b with
      tempFile := some (saved b ++ chainData b b.toWrite), toWrite := nextOrBufs b.bufs, buf := [] } read := by
  cases h with
  | alone hbufs hwrite hread =>
      refine Holds.alone hbufs (by simp [hbufs, nextOrBufs]) ?_
      simpa [saved, chainData, linkData, hwrite] using hread
  | unwritten hbufs hflags hwrite hnone hne hfirst hread =>
      refine Holds.written hbufs hflags (by simp [hbufs, nextOrBufs]) (by simp) ?_ ?_
      · dsimp only
        omega
      · simpa [saved, chainData, linkData, hwrite, hnone] using hread
  | written hbufs hflags hwrite hsome hless hread =>
      refine Holds.written hbufs hflags (by simp [hbufs, nextOrBufs]) (by simp) hless ?_
      simpa [saved, chainData, linkData, hwrite] using hread
  | behind hbufs hflags hwrite hread =>
      refine Holds.behind hbufs hflags (by simp [hbufs, nextOrBufs]) ?_
      simpa [saved, chainData, linkData, hwrite] using hread

theorem Kept.makeRoom (h : Kept t r b input) (hrest : 0 < b.rest) (hroom : makeRoom disk b = some b') :
    Kept t r b' input ∧ b'.rest = b.rest := by
  rcases makeRoom_cases hroom with rfl | ⟨hfull, rfl⟩
  · exact ⟨h, rfl⟩
  · obtain ⟨read, hwhole, htotal, hholds⟩ := h.held
    refine ⟨⟨h.header, h.single, h.fileOnly, h.bufs, h.size, by simp, h.rest, read, hwhole, htotal, ?_⟩, rfl⟩
    exact hholds.flush hfull hrest

theorem Holds.receive (h : Holds t b read) (got : Bytes) : Holds t (receive b got) (read ++ got) := by
  cases h with
  | alone hbufs hwrite hread =>
      refine Holds.alone hbufs hwrite ?_
      rw [← hread, List.append_assoc]
      rfl
  | unwritten hbufs hflags hwrite hnone hne hfirst hread =>
      refine Holds.unwritten hbufs hflags hwrite hnone hne ?_ ?_
      · simp only [RequestBody.receive, List.length_append]
        omega
      · rw [← hread, List.append_assoc]
        rfl
  | written hbufs hflags hwrite hsome hless hread =>
      refine Holds.written hbufs hflags hwrite hsome hless ?_
      rw [← hread, List.append_assoc]
      rfl
  | behind hbufs hflags hwrite hread =>
      refine Holds.behind hbufs hflags hwrite ?_
      rw [← hread, List.append_assoc, List.append_assoc]
      rfl

theorem Kept.receive (h : Kept t r b input) (n : Nat) (hn : n ≤ wanted b) (len : Int) :
    Kept t { r with requestLength := len } (receive b (input.take n)) (input.drop (input.take n).length) := by
  obtain ⟨read, hwhole, htotal, hholds⟩ := h.held
  have hlen : (input.take n).length ≤ n := List.length_take_le n input
  simp only [wanted] at hn
  have hfits := h.fits
  have hrest := h.rest
  refine ⟨h.header, h.single, h.fileOnly, h.bufs, h.size, ?_, ?_, read ++ input.take n, ?_, ?_, hholds.receive _⟩
  · simp only [RequestBody.receive, List.length_append]
    omega
  · simp only [RequestBody.receive]
    omega
  · rw [hwhole, List.append_assoc]
    congr 1
    exact (List.prefix_iff_eq_append.mp (List.take_prefix n input)).symm
  · simp only [RequestBody.receive, List.length_append]
    omega

-- A whole body, where the chain loses nothing it holds
theorem final_of_data (hheader : r.headerIn = t.header) (hnot : ¬t.Loses) (hwhole : t.whole = read ++ input)
    (htotal : (read.length : Int) = t.total) (hdata : bodyData r = read) : Final t r := by
  refine ⟨hheader, ?_⟩
  have htake : t.whole.take t.total.toNat = read := by
    rw [hwhole, ← htotal, Int.toNat_natCast, List.take_left]
  rw [htake]
  exact ⟨fun _ => hnot, fun _ => hdata⟩

theorem saveLast_cases (h : saveLast disk r b = some b') :
    (b.tempFile.isSome || r.inFileOnly) = false ∧ b' = b ∨
      (b.tempFile.isSome || r.inFileOnly) = true ∧ b' = { b with
        tempFile := some (saved b ++ chainData b b.toWrite), bufs := fileBufs b.bufs } := by
  simp only [saveLast] at h
  split at h
  · rename_i hsave
    obtain ⟨written, hwritten, rfl⟩ := Option.map_eq_some_iff.mp h
    rw [writeRequestBody_eq_some b.toWrite hwritten]
    exact Or.inr ⟨hsave, rfl⟩
  · rename_i hsave
    exact Or.inl ⟨by simpa using hsave, (Option.some.inj h).symm⟩

theorem finish_final {r' : Request} (h : Kept t r b input) (hrest : b.rest = 0)
    (hposted : finish disk r b = .posted r') : Final t r' := by
  obtain ⟨read, hwhole, htotal, hholds⟩ := h.held
  rw [hrest, Int.add_zero] at htotal
  simp only [finish] at hposted
  split at hposted
  · cases hposted
  · rename_i b' hsave
    obtain rfl := Outcome.posted.inj hposted
    rcases saveLast_cases hsave with ⟨hnoSave, rfl⟩ | ⟨hsaved, rfl⟩
    · obtain ⟨hnone, hmem⟩ := Bool.or_eq_false_iff.mp hnoSave
      rw [Option.isSome_eq_false_iff, Option.isNone_iff_eq_none] at hnone
      cases hholds with
      | alone hbufs hwrite hread =>
          have hnot : ¬t.Loses := by
            rintro ⟨hlost, -⟩
            rw [← h.bufs, hbufs] at hlost
            cases hlost
          refine final_of_data h.header hnot hwhole htotal ?_
          simpa [bodyData, finalBufs, hbufs, chainData, linkData, saved, hnone] using hread
      | unwritten hbufs hflags hwrite hnone' hne hfirst hread =>
          -- the flags are request_body_in_single_buf alone, and the pre-read part is taken off the chain
          rw [h.fileOnly] at hmem
          have hsingle : t.single = true := by simpa [hmem] using hflags
          have hfits := h.fits
          have hloses : t.Loses := ⟨h.bufs.symm.trans hbufs, hsingle, hmem, by rw [← h.size]; omega⟩
          refine ⟨h.header, ?_⟩
          have htake : t.whole.take t.total.toNat = read := by
            rw [hwhole, ← htotal, Int.toNat_natCast, List.take_left]
          rw [htake]
          have hdata : bodyData { r with requestBody := some { b' with bufs := finalBufs r b'.bufs } } = b'.buf := by
            simp [bodyData, finalBufs, hbufs, h.single, hsingle, chainData, linkData]
          rw [hdata]
          constructor
          · intro heq
            rw [← hread] at heq
            have hlens := congrArg List.length heq
            rw [List.length_append] at hlens
            have hpos := List.length_pos_iff.mpr hne
            omega
          · exact fun hnot => absurd hloses hnot
      | written hbufs hflags hwrite hsome hless hread => exact absurd hnone hsome
      | behind hbufs hflags hwrite hread =>
          obtain ⟨hfile, hsingle⟩ := Bool.or_eq_false_iff.mp hflags
          have hnot : ¬t.Loses := by
            rintro ⟨-, htrue, -⟩
            rw [hsingle] at htrue
            cases htrue
          refine final_of_data h.header hnot hwhole htotal ?_
          simpa [bodyData, finalBufs, hbufs, chainData, linkData, saved, hnone, hmem, h.single, hsingle] using hread
    · have hfits := h.fits
      cases hholds with
      | alone hbufs hwrite hread =>
          have hnot : ¬t.Loses := by
            rintro ⟨hlost, -⟩
            rw [← h.bufs, hbufs] at hlost
            cases hlost
          refine final_of_data h.header hnot hwhole htotal ?_
          simpa [bodyData, finalBufs, fileBufs, hbufs, hwrite, chainData, linkData, saved] using hread
      | unwritten hbufs hflags hwrite hnone hne hfirst hread =>
          have hfile : t.fileOnly = true := by
            rw [h.fileOnly, hnone] at hsaved
            simpa using hsaved
          have hnot : ¬t.Loses := by
            rintro ⟨-, -, hfalse, -⟩
            rw [hfile] at hfalse
            cases hfalse
          refine final_of_data h.header hnot hwhole htotal ?_
          simpa [bodyData, finalBufs, fileBufs, hbufs, hwrite, chainData, linkData, saved, hnone, h.fileOnly, hfile] using hread
      | written hbufs hflags hwrite hsome hless hread =>
          have hnot : ¬t.Loses := by
            rintro ⟨-, -, -, hle⟩
            rw [← h.size] at hle
            omega
          refine final_of_data h.header hnot hwhole htotal ?_
          simpa [bodyData, finalBufs, fileBufs, hbufs, hwrite, chainData, linkData, saved, h.fileOnly, h.single, hflags] using hread
      | behind hbufs hflags hwrite hread =>
          obtain ⟨hfile, hsingle⟩ := Bool.or_eq_false_iff.mp hflags
          have hnot : ¬t.Loses := by
            rintro ⟨-, htrue, -⟩
            rw [hsingle] at htrue
            cases htrue
          refine final_of_data h.header hnot hwhole htotal ?_
          simpa [bodyData, finalBufs, fileBufs, hbufs, hwrite, chainData, linkData, saved, h.fileOnly, h.single, hfile, hsingle] using hread

-- Where the reading stands after some events
def Reached (t : Task) : Outcome → Prop
  | .posted r => Final t r
  | .again r b input => Kept t r b input ∧ 0 < b.rest
  | .status _ => True

theorem finish_reached (h : Kept t r b input) (hrest : b.rest = 0) : Reached t (finish disk r b) := by
  cases hfinish : finish disk r b with
  | posted r' => exact finish_final h hrest hfinish
  | again r' b' input' =>
      simp only [finish] at hfinish
      split at hfinish <;> cases hfinish
  | status n => trivial

theorem doReadClientRequestBody_reached (recvs : List Recv) (h : Kept t r b input) (hrest : 0 < b.rest) :
    Reached t (doReadClientRequestBody disk recvs input r b) := by
  induction recvs generalizing input r b with
  | nil =>
      rw [doReadClientRequestBody]
      cases hroom : makeRoom disk b with
      | none => trivial
      | some b' =>
          obtain ⟨hkept, hrest'⟩ := h.makeRoom hrest hroom
          exact ⟨hkept, by omega⟩
  | cons recv recvs ih =>
      rw [doReadClientRequestBody]
      cases hroom : makeRoom disk b with
      | none => trivial
      | some b' =>
          obtain ⟨hkept, hrest'⟩ := h.makeRoom hrest hroom
          have hpos : 0 < b'.rest := by omega
          dsimp only
          cases recv with
          | again ready =>
              dsimp only
              split
              · rename_i hzero
                exact finish_reached hkept hzero
              · split
                · exact ih hkept hpos
                · exact ⟨hkept, hpos⟩
          | closed => trivial
          | error => trivial
          | bytes n ready =>
              dsimp only
              split
              · exact ⟨hkept, hpos⟩
              · have hgot := hkept.receive (min (n + 1) (wanted b')) (Nat.min_le_right _ _)
                  (r.requestLength + (input.take (min (n + 1) (wanted b'))).length)
                split
                · rename_i hzero
                  exact finish_reached hgot hzero
                · rename_i hmore
                  have hleft := hgot.rest
                  have hpos' : 0 < (receive b' (input.take (min (n + 1) (wanted b')))).rest := by omega
                  split
                  · split
                    · exact ih hgot hpos'
                    · exact ⟨hgot, hpos'⟩
                  · exact ih hgot hpos'

theorem handleEvents_reached (events : List Event) (h : Kept t r b input) (hrest : 0 < b.rest) :
    Reached t (handleEvents disk events input r b) := by
  induction events generalizing input r b with
  | nil => exact ⟨h, hrest⟩
  | cons event events ih =>
      cases event with
      | timedout => trivial
      | readable recvs =>
          have hreached := @doReadClientRequestBody_reached disk _ _ _ _ recvs h hrest
          rw [handleEvents]
          cases houtcome : doReadClientRequestBody disk recvs input r b with
          | posted r' =>
              rw [houtcome] at hreached
              exact hreached
          | again r' b' input' =>
              rw [houtcome] at hreached
              exact ih hreached.1 hreached.2
          | status n => trivial

def taskOf (r : Request) (preread input : Bytes) (b : Body) : Task where
  whole := preread ++ input
  total := preread.length + b.rest
  first := b.rest
  header := []
  single := r.inSingleBuf
  fileOnly := r.inFileOnly
  bufs := b.bufs
  size := b.size

theorem placeBody_holds (preread : Bytes) (rest : Int) (copied : Bool) (size : Nat) :
    Holds (taskOf r preread input (placeBody r preread rest copied size))
      (placeBody r preread rest copied size) preread := by
  by_cases hcopied : copied = true
  · refine Holds.alone ?_ ?_ ?_ <;> simp [placeBody, saved, nextOrBufs, hcopied]
  · by_cases hempty : preread = []
    · subst hempty
      refine Holds.alone ?_ ?_ ?_ <;> simp [placeBody, saved, nextOrBufs]
    · have hbufs : (placeBody r preread rest copied size).bufs = [.preread, .buf] := by
        simp [placeBody, hcopied, hempty]
      by_cases hflags : (r.inFileOnly || r.inSingleBuf) = true
      · refine Holds.unwritten hbufs hflags ?_ ?_ ?_ ?_ ?_ <;>
          simp [placeBody, taskOf, hcopied, hempty, hflags]
      · rw [Bool.not_eq_true] at hflags
        refine Holds.behind hbufs hflags ?_ ?_ <;>
          simp [placeBody, saved, nextOrBufs, hcopied, hempty, hflags]

theorem placeBody_kept (preread : Bytes) (rest len : Int) (copied : Bool) (size : Nat) (hrest : 0 < rest)
    (hsize : copied = true → preread.length ≤ size) :
    Kept (taskOf r preread input (placeBody r preread rest copied size))
      { r with headerIn := [], requestLength := len } (placeBody r preread rest copied size) input := by
  refine ⟨rfl, rfl, rfl, rfl, rfl, ?_, Int.le_of_lt hrest, preread, rfl, rfl, placeBody_holds preread rest copied size⟩
  by_cases hcopied : copied = true
  · simpa [placeBody, hcopied] using hsize hcopied
  · simp [placeBody, hcopied]

theorem ownBody_kept (n : Nat) (preread : Bytes) (rest len : Int) (hrest : 0 < rest) :
    Kept (taskOf r preread input (ownBody n r preread rest)) { r with headerIn := [], requestLength := len }
      (ownBody n r preread rest) input := by
  apply placeBody_kept preread rest len _ _ hrest
  intro hcopied
  have hsingle := (Bool.and_eq_true_iff.mp hcopied).2
  have hsmall := of_decide_eq_true (Bool.and_eq_true_iff.mp (Bool.and_eq_true_iff.mp hcopied).1).1
  simp [ownSize, hsingle, hsmall]

-- The pre-read part, too long for the copy and too short for a write, is taken off the chain: the rest of the body does
-- not fit behind it in r->header_in, is not below the limit and does not go beyond client_body_buffer_size.
def Drops (clientBodyBufferSize : Nat) (r : Request) : Prop :=
  r.inSingleBuf = true ∧ r.inFileOnly = false ∧ r.headerIn ≠ [] ∧
    (r.room : Int) < r.contentLengthN - r.headerIn.length ∧
    bodyLimit clientBodyBufferSize ≤ r.contentLengthN - r.headerIn.length ∧
    r.contentLengthN - r.headerIn.length ≤ clientBodyBufferSize

theorem placeBody_loses_iff (preread : Bytes) (rest : Int) (copied : Bool) (size : Nat) :
    (taskOf r preread input (placeBody r preread rest copied size)).Loses ↔
      copied = false ∧ preread ≠ [] ∧ r.inSingleBuf = true ∧ r.inFileOnly = false ∧ rest ≤ size := by
  by_cases hcopied : copied = true
  · simp [Task.Loses, taskOf, placeBody, hcopied]
  · by_cases hempty : preread = []
    · simp [Task.Loses, taskOf, placeBody, hempty]
    · simp [Task.Loses, taskOf, placeBody, hcopied, hempty]

theorem ownBody_loses_iff (n : Nat) (preread : Bytes) (rest : Int) :
    (taskOf r preread input (ownBody n r preread rest)).Loses ↔
      r.inSingleBuf = true ∧ r.inFileOnly = false ∧ preread ≠ [] ∧ bodyLimit n ≤ rest ∧ rest ≤ n := by
  rw [ownBody, placeBody_loses_iff, copies, ownSize]
  generalize bodyLimit n = limit
  by_cases hsmall : rest < limit
  · have hnot : ¬limit ≤ rest := Int.not_le.mpr hsmall
    by_cases hempty : preread = []
    · simp [hempty]
    · by_cases hsingle : r.inSingleBuf = true
      · simp [hsmall, hempty, hsingle, hnot]
      · simp [hsingle]
  · have hle : limit ≤ rest := Int.not_lt.mp hsmall
    simp only [hsmall, hle, decide_false, Bool.false_and, if_false, true_and]
    constructor
    · rintro ⟨hne, hsingle, hfile, hfits⟩
      exact ⟨hsingle, hfile, hne, hfits⟩
    · rintro ⟨hsingle, hfile, hne, hfits⟩
      exact ⟨hne, hsingle, hfile, hfits⟩

-- The body is what stands first behind the header, and the bytes behind it stay in r->header_in.
def Assembled (input : Bytes) (r r' : Request) : Prop :=
  bodyData r' = (r.headerIn ++ input).take r.contentLengthN.toNat ∧
    r'.headerIn = r.headerIn.drop r.contentLengthN.toNat

theorem reached_serve {n : Nat} {recvs : List Recv} {events : List Event} {r' : Request}
    (h : Reached t (readClientRequestBody n disk recvs input r))
    (hposted : serve n disk recvs events input r = .posted r') : Final t r' := by
  simp only [serve] at hposted
  cases houtcome : readClientRequestBody n disk recvs input r with
  | posted r'' =>
      rw [houtcome] at h hposted
      obtain rfl := Outcome.posted.inj hposted
      exact h
  | again r'' b input' =>
      rw [houtcome] at h hposted
      have hreached := @handleEvents_reached disk _ _ _ _ events h.1 h.2
      dsimp only at hposted
      rw [hposted] at hreached
      exact hreached
  | status n =>
      rw [houtcome] at hposted
      cases hposted

theorem assembled_iff_of_final {r' : Request} (hpos : (r.headerIn.length : Int) < r.contentLengthN)
    (hwhole : t.whole = r.headerIn ++ input) (htotal : t.total = r.contentLengthN) (hheader : t.header = [])
    (h : Final t r') : Assembled input r r' ↔ ¬t.Loses := by
  have hdrop : r.headerIn.drop r.contentLengthN.toNat = [] := List.drop_eq_nil_of_le (by omega)
  rw [Assembled, hdrop, h.1, hheader, ← htotal, ← hwhole]
  constructor
  · exact fun hassembled => h.2.mp hassembled.1
  · exact fun hnot => ⟨h.2.mpr hnot, rfl⟩

-- The whole body was pre-read.
theorem serve_preread {n : Nat} {recvs : List Recv} {events : List Event} {r' : Request}
    (hfirst : r.requestBody = none) (hdiscard : r.discardBody = false) (hexpected : r.expected = true)
    (hlength : 0 < r.contentLengthN) (hall : r.contentLengthN ≤ r.headerIn.length)
    (hposted : serve n disk recvs events input r = .posted r') : Assembled input r r' := by
  have hne : r.headerIn ≠ [] := by
    intro hempty
    rw [hempty, List.length_nil] at hall
    omega
  have htake : (r.headerIn ++ input).take r.contentLengthN.toNat = r.headerIn.take r.contentLengthN.toNat :=
    List.take_append_of_le_length (by omega)
  by_cases hfile : r.inFileOnly = true
  · by_cases hdisk : disk 0 = true
    · simp [serve, readClientRequestBody, hfirst, hdiscard, hexpected, Int.not_lt.mpr (Int.le_of_lt hlength),
        Int.ne_of_gt hlength, hne, hall, hfile, writeRequestBody, hdisk] at hposted
      subst hposted
      exact ⟨by simp [bodyData, chainData, linkData, htake], rfl⟩
    · simp [serve, readClientRequestBody, hfirst, hdiscard, hexpected, Int.not_lt.mpr (Int.le_of_lt hlength),
        Int.ne_of_gt hlength, hne, hall, hfile, writeRequestBody, hdisk] at hposted
  · simp [serve, readClientRequestBody, hfirst, hdiscard, hexpected, Int.not_lt.mpr (Int.le_of_lt hlength),
      Int.ne_of_gt hlength, hne, hall, hfile] at hposted
    subst hposted
    exact ⟨by simp [bodyData, chainData, linkData, htake], rfl⟩

-- The rest of the body has room in r->header_in.
theorem headerBody_kept (rest len : Int) (hrest : 0 < rest) :
    Kept (taskOf r r.headerIn input { bufs := [.buf], size := r.headerIn.length + r.room, rest := rest })
      { r with headerIn := [], requestLength := len }
      { bufs := [.buf], toWrite := [.buf], buf := r.headerIn, size := r.headerIn.length + r.room, rest := rest }
      input :=
  ⟨rfl, rfl, rfl, rfl, rfl, Nat.le_add_right _ _, Int.le_of_lt hrest, r.headerIn, rfl, rfl, .alone rfl rfl rfl⟩

-- A part of the body was pre-read.
theorem serve_part {n : Nat} {recvs : List Recv} {events : List Event} {r' : Request}
    (hfirst : r.requestBody = none) (hdiscard : r.discardBody = false) (hexpected : r.expected = true)
    (hne : r.headerIn ≠ []) (hmore : (r.headerIn.length : Int) < r.contentLengthN)
    (hposted : serve n disk recvs events input r = .posted r') : Assembled input r r' ↔ ¬Drops n r := by
  have hlength : 0 < r.contentLengthN := by omega
  have hrest : 0 < r.contentLengthN - r.headerIn.length := by omega
  by_cases hroom : r.contentLengthN - r.headerIn.length ≤ r.room
  · have hread : readClientRequestBody n disk recvs input r =
        doReadClientRequestBody disk recvs input
          { r with headerIn := [], requestLength := r.requestLength + r.headerIn.length }
          { bufs := [.buf], toWrite := [.buf], buf := r.headerIn, size := r.headerIn.length + r.room
            rest := r.contentLengthN - r.headerIn.length } := by
      simp [readClientRequestBody, hfirst, hdiscard, hexpected, Int.not_lt.mpr (Int.le_of_lt hlength),
        Int.ne_of_gt hlength, hne, Int.not_le.mpr hmore, hroom]
    have hkept := @headerBody_kept r input _ (r.requestLength + r.headerIn.length) hrest
    have hreached := @doReadClientRequestBody_reached disk _ _ _ _ recvs hkept hrest
    rw [← hread] at hreached
    rw [assembled_iff_of_final hmore rfl (by simp only [taskOf]; omega) rfl (reached_serve hreached hposted)]
    have hnot : ¬Drops n r := fun hdrops => absurd hroom (Int.not_le.mpr hdrops.2.2.2.1)
    simp [Task.Loses, taskOf, hnot]
  · have hread : readClientRequestBody n disk recvs input r =
        doReadClientRequestBody disk recvs input
          { r with headerIn := [], requestLength := r.requestLength + r.headerIn.length }
          (ownBody n r r.headerIn (r.contentLengthN - r.headerIn.length)) := by
      simp [readClientRequestBody, hfirst, hdiscard, hexpected, Int.not_lt.mpr (Int.le_of_lt hlength),
        Int.ne_of_gt hlength, hne, Int.not_le.mpr hmore, hroom]
    have hkept := @ownBody_kept r input n r.headerIn _ (r.requestLength + r.headerIn.length) hrest
    have hreached := @doReadClientRequestBody_reached disk _ _ _ _ recvs hkept hrest
    rw [← hread] at hreached
    rw [assembled_iff_of_final hmore (by simp only [taskOf]) (by simp only [taskOf, ownBody, placeBody]; omega)
      (by simp only [taskOf]) (reached_serve hreached hposted), ownBody_loses_iff]
    have hroom' : (r.room : Int) < r.contentLengthN - r.headerIn.length := Int.not_le.mp hroom
    simp [Drops, hne, hroom']

theorem serve_assembled_iff (clientBodyBufferSize : Nat) (disk : Nat → Bool) (recvs : List Recv)
    (events : List Event) (input : Bytes) (r r' : Request) (hfirst : r.requestBody = none)
    (hdiscard : r.discardBody = false) (hlength : 0 < r.contentLengthN)
    (hposted : serve clientBodyBufferSize disk recvs events input r = .posted r') :
    Assembled input r r' ↔ ¬Drops clientBodyBufferSize r := by
  by_cases hexpected : r.expected = true
  · by_cases hempty : r.headerIn = []
    · -- nothing was pre-read
      have hread : readClientRequestBody clientBodyBufferSize disk recvs input r =
          doReadClientRequestBody disk recvs input r (ownBody clientBodyBufferSize r [] r.contentLengthN) := by
        simp [readClientRequestBody, hfirst, hdiscard, hexpected, hempty, Int.not_lt.mpr (Int.le_of_lt hlength),
          Int.ne_of_gt hlength]
      have hkept := @ownBody_kept r input clientBodyBufferSize [] r.contentLengthN r.requestLength hlength
      have hr : { r with headerIn := [], requestLength := r.requestLength } = r := by
        rw [← hempty]
      rw [hr] at hkept
      have hreached := @doReadClientRequestBody_reached disk _ _ _ _ recvs hkept hlength
      rw [← hread] at hreached
      have hfinal := reached_serve hreached hposted
      rw [assembled_iff_of_final (by simpa [hempty] using hlength) (by simp [taskOf, hempty])
        (by simp [taskOf, ownBody, placeBody]) rfl hfinal, ownBody_loses_iff]
      simp [Drops, hempty]
    · rcases Int.lt_or_le r.headerIn.length r.contentLengthN with hmore | hall
      · exact serve_part hfirst hdiscard hexpected hempty hmore hposted
      · have hassembled := serve_preread hfirst hdiscard hexpected hlength hall hposted
        have hnot : ¬Drops clientBodyBufferSize r := by
          rintro ⟨-, -, -, hroom, -⟩
          omega
        exact ⟨fun _ => hnot, fun _ => hassembled⟩
  · simp [serve, readClientRequestBody, hfirst, hdiscard, hexpected] at hposted

-- A body "ab" of which "a" was pre-read, at the very end of r->header_in
def splitRequest : Request where
  headerIn := [97]
  room := 0
  contentLengthN := 2
  inFileOnly := false
  inSingleBuf := true

-- With a client_body_buffer_size of one byte the chain of the body holds "b".
theorem serve_drops :
    ∃ r', serve 1 (fun _ => true) [.bytes 0 true] [] [98] splitRequest = .posted r' ∧ bodyData r' = [98] ∧
      ¬Assembled [98] splitRequest r' := by
  refine ⟨_, rfl, rfl, ?_⟩
  unfold Assembled
  decide

theorem serve_assembled_iff_file :
    ∃ r', serve 4 (fun _ => true) [.bytes 3 true, .bytes 9 false] [.readable [.bytes 0 true]] [98, 99, 100, 101, 102, 103]
        { splitRequest with contentLengthN := 7 } = .posted r' ∧
      Assembled [98, 99, 100, 101, 102, 103] { splitRequest with contentLengthN := 7 } r' := by
  obtain ⟨r', hposted⟩ : ∃ r', serve 4 (fun _ => true) [.bytes 3 true, .bytes 9 false] [.readable [.bytes 0 true]]
      [98, 99, 100, 101, 102, 103] { splitRequest with contentLengthN := 7 } = .posted r' := ⟨_, rfl⟩
  refine ⟨r', hposted, ?_⟩
  refine (serve_assembled_iff 4 _ _ _ _ _ r' rfl rfl (by decide) hposted).mpr ?_
  rintro ⟨-, -, -, -, -, hle⟩
  simp [splitRequest] at hle

end Nginx.RequestBody
