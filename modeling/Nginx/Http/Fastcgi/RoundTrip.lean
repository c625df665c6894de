import Nginx.Http.Fastcgi.Decode

namespace Nginx.Fastcgi

def isOverridden (conf : LocConf) (header : Header) : Bool := conf.headerParams ≠ 0 && isIgnored conf header

-- The names and values that are to be sent
def sentPairs (conf : LocConf) (headers : List Header) : List (Bytes × Bytes) :=
  (conf.params.map fun p => (p.key, p.codes.flatten)) ++
    if conf.passRequestHeaders then
      (headers.filter fun header => !isOverridden conf header).map fun header => (http ++ header.key.map upcase, header.value)
    else []

def sentBody (conf : LocConf) (body : List Buf) : Bytes :=
  if conf.passRequestBody then (body.map Buf.bytes).flatten else []

-- What a decoder finds in the chain, and that each buffer holds what was written to it
structure Faithful (conf : LocConf) (headers : List Header) (body : List Buf) (out : List Out) : Prop where
  decoded : ∃ (content : Bytes) (pieces : List Bytes),
    decodeStream (out.map Out.bytes).flatten = some ((beginRequest, [0, 1, 0, 0, 0, 0, 0, 0]) :: (params, content) ::
      (params, []) :: ((pieces.map fun piece => (stdin, piece)) ++ [(stdin, [])])) ∧
    decodeParams content = some (sentPairs conf headers) ∧ pieces.flatten = sentBody conf body
  fits : ∀ size bytes, Out.temp size bytes ∈ out → bytes.length ≤ size

variable {conf : LocConf} {headers : List Header} {body : List Buf} {answers answers' : List Bool} {out : List Out}

theorem valLen_eq (p : Param) : p.valLen = p.codes.flatten.length := by
  rw [Param.valLen, List.length_flatten]

theorem countParams_eq (ps : List Param) (len : Nat) : countParams ps len = len + (writeParams ps).length := by
  induction ps generalizing len with
  | nil => rfl
  | cons p ps ih =>
      have hval := valLen_eq p
      rw [countParams, ih, writeParams]
      simp only [List.length_cons, List.length_append, writeLen_length, lenSize, hval]
      omega

-- The bytes of the headers that are not overridden
def headerBytes (conf : LocConf) : List Header → Bytes
  | [] => []
  | header :: headers =>
      if isOverridden conf header then headerBytes conf headers
      else
        writeLen (5 + header.key.length) ++ (writeLen header.value.length ++
          (http ++ (header.key.map upcase ++ (header.value ++ headerBytes conf headers))))

theorem countHeaders_eq {i allocated len len' : Nat} {ignored ignored' : List Nat} (hignored : ∀ j ∈ ignored, j < i)
    (h : countHeaders conf headers i allocated len ignored answers = some (len', ignored', answers')) :
    (∀ j < i, j ∈ ignored' ↔ j ∈ ignored) ∧ len' = len + (headerBytes conf headers).length ∧
      writeHeaders ignored' headers i = headerBytes conf headers := by
  induction headers generalizing i allocated len ignored answers with
  | nil =>
      cases h
      exact ⟨fun j _ => Iff.rfl, rfl, rfl⟩
  | cons header headers ih =>
      rw [writeHeaders, headerBytes]
      have hnot : i ∉ ignored := fun hmem => Nat.lt_irrefl i (hignored i hmem)
      -- The header is sent, whatever its place in the loop.
      have hsent : isOverridden conf header = false → ∀ allocated answers,
          countHeaders conf headers (i + 1) allocated (len + ((if 5 + header.key.length > 127 then 4 else 1) +
            (if header.value.length > 127 then 4 else 1) + (5 + header.key.length) + header.value.length)) ignored answers =
            some (len', ignored', answers') →
          (∀ j < i, j ∈ ignored' ↔ j ∈ ignored) ∧
            len' = len + (if isOverridden conf header then headerBytes conf headers
              else writeLen (5 + header.key.length) ++ (writeLen header.value.length ++
                (http ++ (header.key.map upcase ++ (header.value ++ headerBytes conf headers))))).length ∧
            (if i ∈ ignored' then writeHeaders ignored' headers (i + 1)
              else writeLen (5 + header.key.length) ++ (writeLen header.value.length ++
                (http ++ (header.key.map upcase ++ (header.value ++ writeHeaders ignored' headers (i + 1)))))) =
              if isOverridden conf header then headerBytes conf headers
              else writeLen (5 + header.key.length) ++ (writeLen header.value.length ++
                (http ++ (header.key.map upcase ++ (header.value ++ headerBytes conf headers)))) := by
        intro hover allocated answers hrest
        obtain ⟨hmem, hlen, hwrite⟩ := ih (fun j hj => Nat.lt_succ_of_lt (hignored j hj)) hrest
        have hi : i ∉ ignored' := fun hi => hnot ((hmem i (Nat.lt_succ_self i)).mp hi)
        rw [hover, if_neg Bool.false_ne_true, if_neg hi, hwrite]
        refine ⟨fun j hj => hmem j (Nat.lt_succ_of_lt hj), ?_, rfl⟩
        have hhttp : http.length = 5 := rfl
        rw [hlen]
        simp only [List.length_append, writeLen_length, lenSize, List.length_map, hhttp]
        omega
      rw [countHeaders] at h
      dsimp only at h
      split at h
      · rename_i hparams
        split at h
        · cases h
        · split at h
          · rename_i hign
            have hover : isOverridden conf header = true := by simp [isOverridden, hparams, hign]
            obtain ⟨hmem, hlen, hwrite⟩ := ih (by
              intro j hj
              rcases List.mem_append.mp hj with hj | hj
              · exact Nat.lt_succ_of_lt (hignored j hj)
              · rw [List.mem_singleton.mp hj]
                exact Nat.lt_succ_self i) h
            have hi : i ∈ ignored' := (hmem i (Nat.lt_succ_self i)).mpr (by simp)
            rw [hover, if_pos rfl, if_pos hi]
            refine ⟨fun j hj => ?_, hlen, hwrite⟩
            rw [hmem j (Nat.lt_succ_of_lt hj), List.mem_append, List.mem_singleton]
            exact ⟨fun hor => hor.resolve_right (by omega), Or.inl⟩
          · rename_i hign
            exact hsent (by simp [isOverridden, hign]) _ _ h
      · rename_i hparams
        exact hsent (by simp [isOverridden, hparams]) _ _ h

-- What the two passes agree on
theorem countRequest_eq {len : Nat} {ignored : List Nat}
    (h : countRequest conf headers answers = some (len, ignored, answers')) :
    (writeParams conf.params ++ if conf.passRequestHeaders then writeHeaders ignored headers 0 else []) =
        writeParams conf.params ++ (if conf.passRequestHeaders then headerBytes conf headers else []) ∧
      len = (writeParams conf.params ++ if conf.passRequestHeaders then headerBytes conf headers else []).length := by
  rw [countRequest] at h
  have hparams := countParams_eq conf.params 0
  dsimp only at h
  split at h
  · rename_i hpass
    rw [hpass, if_pos rfl, if_pos rfl]
    have hheaders : ∀ answers, countHeaders conf headers 0 0 (countParams conf.params 0) [] answers =
        some (len, ignored, answers') →
        writeParams conf.params ++ writeHeaders ignored headers 0 = writeParams conf.params ++ headerBytes conf headers ∧
          len = (writeParams conf.params ++ headerBytes conf headers).length := by
      intro answers hcount
      obtain ⟨-, hlen, hwrite⟩ := countHeaders_eq (by simp) hcount
      rw [hwrite, hlen, hparams, List.length_append]
      exact ⟨rfl, by omega⟩
    split at h
    · simp only [Option.bind_eq_bind, Option.bind_eq_some_iff] at h
      obtain ⟨answers₁, -, h⟩ := h
      exact hheaders answers₁ h
    · exact hheaders answers h
  · rename_i hpass
    rw [if_neg hpass, if_neg hpass]
    cases h
    rw [hparams, List.append_nil]
    exact ⟨rfl, by omega⟩

theorem decodeParams_headers (hlen : (headerBytes conf headers).length ≤ 65535) :
    decodeParams (headerBytes conf headers) =
      some ((headers.filter fun header => !isOverridden conf header).map
        fun header => (http ++ header.key.map upcase, header.value)) := by
  induction headers with
  | nil => rfl
  | cons header headers ih =>
      rw [headerBytes] at hlen ⊢
      split
      · rename_i hover
        rw [if_pos hover] at hlen
        rw [List.filter_cons, if_neg (by simp [hover])]
        exact ih hlen
      · rename_i hover
        rw [if_neg hover] at hlen
        have hkey : (http ++ header.key.map upcase).length = 5 + header.key.length := by
          rw [List.length_append, List.length_map]
          rfl
        have hhttp : http.length = 5 := rfl
        simp only [List.length_append, writeLen_length, List.length_map, hhttp] at hlen
        rw [List.filter_cons, if_pos (by simp [hover]), List.map_cons, ← hkey, ← List.append_assoc http]
        exact decodeParams_pair _ _ (by omega) (by omega) (ih (by omega))

theorem decodeParams_params {rest : Bytes} {pairs : List (Bytes × Bytes)} (ps : List Param)
    (hnames : ∀ p ∈ ps, p.key.length ≤ 127) (hlen : (writeParams ps).length ≤ 65535)
    (hrest : decodeParams rest = some pairs) :
    decodeParams (writeParams ps ++ rest) = some ((ps.map fun p => (p.key, p.codes.flatten)) ++ pairs) := by
  induction ps with
  | nil => exact hrest
  | cons p ps ih =>
      have hname := hnames p (by simp)
      have hval := valLen_eq p
      rw [writeParams] at hlen ⊢
      simp only [List.length_cons, List.length_append, writeLen_length] at hlen
      have hone : writeLen p.key.length = [UInt8.ofNat p.key.length] := by rw [writeLen, if_neg (by omega)]
      have hpair := decodeParams_pair p.key p.codes.flatten (by omega) (by omega)
        (ih (fun q hq => hnames q (List.mem_cons_of_mem p hq)) (by omega))
      rw [hone] at hpair
      simpa only [hval, List.cons_append, List.nil_append, List.append_assoc, List.map_cons] using hpair

theorem headerBytes_size (conf : LocConf) (headers : List Header) :
    (((headers.filter fun header => !isOverridden conf header).map
      fun header => (http ++ header.key.map upcase, header.value)).map pairSize).sum = (headerBytes conf headers).length := by
  induction headers with
  | nil => rfl
  | cons header headers ih =>
      rw [headerBytes]
      split
      · rename_i hover
        rw [List.filter_cons, if_neg (by simp [hover])]
        exact ih
      · rename_i hover
        have hhttp : http.length = 5 := rfl
        rw [List.filter_cons, if_pos (by simp [hover]), List.map_cons, List.map_cons, List.sum_cons, ih]
        simp only [pairSize, List.length_append, List.length_map, writeLen_length, hhttp]
        omega

-- A name of more than 127 bytes gets three bytes less than its length needs.
theorem writeParams_size (ps : List Param) :
    (writeParams ps).length ≤ ((ps.map fun p => (p.key, p.codes.flatten)).map pairSize).sum ∧
      ((∃ p ∈ ps, 127 < p.key.length) →
        (writeParams ps).length < ((ps.map fun p => (p.key, p.codes.flatten)).map pairSize).sum) := by
  induction ps with
  | nil => simp [writeParams]
  | cons p ps ih =>
      obtain ⟨hle, hlt⟩ := ih
      have hval := valLen_eq p
      have hone : 1 ≤ lenSize p.key.length := by
        unfold lenSize
        split <;> omega
      rw [writeParams, List.map_cons, List.map_cons, List.sum_cons]
      simp only [List.length_cons, List.length_append, writeLen_length, pairSize, hval]
      refine ⟨by omega, ?_⟩
      rintro ⟨q, hq, hlong⟩
      rcases List.mem_cons.mp hq with rfl | hq
      · have hfour : lenSize q.key.length = 4 := by rw [lenSize, if_pos (by omega)]
        omega
      · have hless := hlt ⟨q, hq, hlong⟩
        omega

theorem decodeParams_iff (hlen : (writeParams conf.params ++
      if conf.passRequestHeaders then headerBytes conf headers else []).length ≤ 65535) :
    decodeParams (writeParams conf.params ++ if conf.passRequestHeaders then headerBytes conf headers else []) =
      some (sentPairs conf headers) ↔ ∀ p ∈ conf.params, p.key.length ≤ 127 := by
  rw [List.length_append] at hlen
  constructor
  · intro h p hp
    by_contra hlong
    have hsize := decodePairs_length h
    have hless := (writeParams_size conf.params).2 ⟨p, hp, by omega⟩
    rw [sentPairs, List.map_append, List.sum_append, List.length_append] at hsize
    split at hsize
    · have hheaders := headerBytes_size conf headers
      omega
    · simp only [List.map_nil, List.sum_nil, List.length_nil] at hsize
      omega
  · intro hnames
    rw [sentPairs]
    refine decodeParams_params conf.params hnames (by omega) ?_
    split
    · rename_i hpass
      rw [if_pos hpass] at hlen
      exact decodeParams_headers (by omega)
    · rfl

-- The bytes in front of the header that h points to
def Sending.before (s : Sending) : Bytes := (s.sent.map Out.bytes).flatten ++ s.bytes

structure Sending.Fits (s : Sending) : Prop where
  sent : ∀ size bytes, Out.temp size bytes ∈ s.sent → bytes.length ≤ size
  last : s.bytes.length + 8 ≤ s.size

def stdinRecord (piece : Bytes) : Bytes :=
  recordHeader stdin piece.length (paddingOf piece.length) ++ (piece ++ List.replicate (paddingOf piece.length) 0)

variable {s s' : Sending}

theorem Sending.put_bytes (s : Sending) (header : Bytes) :
    ((s.put header).map Out.bytes).flatten = s.before ++ header := by
  simp [Sending.put, Sending.before, Out.bytes]

theorem Sending.Fits.put (h : s.Fits) {header : Bytes} (hheader : header.length = 8) {size : Nat} {bytes : Bytes}
    (hmem : Out.temp size bytes ∈ s.put header) : bytes.length ≤ size := by
  rcases List.mem_append.mp hmem with hmem | hmem
  · exact h.sent size bytes hmem
  · rw [List.mem_singleton, Out.temp.injEq] at hmem
    obtain ⟨rfl, rfl⟩ := hmem
    have hlast := h.last
    rw [List.length_append, hheader]
    exact hlast

theorem add_spec {buf : Buf} (h : s.add buf = some s') :
    s'.before = s.before ++ stdinRecord buf.bytes ∧ (s.Fits → s'.Fits) := by
  simp only [Sending.add, Option.bind_eq_bind, Option.bind_eq_some_iff] at h
  obtain ⟨-, -, -, -, -, -, answers, -, h⟩ := h
  cases h
  constructor
  · simp only [Sending.before, List.map_append, List.flatten_append, Sending.put_bytes, stdinRecord]
    simp [Out.bytes]
  · intro hfits
    refine ⟨fun size bytes hmem => ?_, by simp [Nat.add_comm]⟩
    rcases List.mem_append.mp hmem with hmem | hmem
    · exact hfits.put rfl hmem
    · rw [List.mem_singleton] at hmem
      cases hmem

-- Records whose contents are the bytes, of at most 32K each, have been sent between the two states.
def Sends (s s' : Sending) (bytes : Bytes) : Prop :=
  ∃ pieces : List Bytes, pieces.flatten = bytes ∧ (∀ piece ∈ pieces, piece.length ≤ 32 * 1024) ∧
    s'.before = s.before ++ (pieces.map stdinRecord).flatten ∧ (s.Fits → s'.Fits)

theorem Sends.refl (s : Sending) : Sends s s [] := ⟨[], rfl, by simp, by simp, id⟩

theorem Sends.trans {s'' : Sending} {bytes bytes' : Bytes} (h : Sends s s' bytes) (h' : Sends s' s'' bytes') :
    Sends s s'' (bytes ++ bytes') := by
  obtain ⟨pieces, rfl, hle, hbefore, hfits⟩ := h
  obtain ⟨pieces', rfl, hle', hbefore', hfits'⟩ := h'
  refine ⟨pieces ++ pieces', by simp, ?_, ?_, fun h => hfits' (hfits h)⟩
  · intro piece hpiece
    rcases List.mem_append.mp hpiece with hpiece | hpiece
    · exact hle piece hpiece
    · exact hle' piece hpiece
  · rw [hbefore', hbefore, List.map_append, List.flatten_append, List.append_assoc]

theorem add_sends {buf : Buf} (h : s.add buf = some s') (hle : buf.bytes.length ≤ 32 * 1024) :
    Sends s s' buf.bytes := by
  obtain ⟨hbefore, hfits⟩ := add_spec h
  exact ⟨[buf.bytes], by simp, by simpa using hle, by simpa using hbefore, hfits⟩

theorem sendBuf_sends {inFile : Bool} {fuel : Nat} {rest : Bytes} (h : sendBuf inFile fuel rest s = some s') :
    Sends s s' rest := by
  induction fuel generalizing rest s with
  | zero => cases h
  | succ fuel ih =>
      simp only [sendBuf, Option.bind_eq_bind, Option.bind_eq_some_iff] at h
      obtain ⟨mid, hadd, h⟩ := h
      have hfirst := add_sends hadd (List.length_take_le _ _)
      split at h
      · rename_i hlast
        cases h
        rw [List.take_of_length_le hlast] at hfirst
        exact hfirst
      · have hall := hfirst.trans (ih h)
        rw [List.take_append_drop] at hall
        exact hall

theorem sendBody_sends {bufs : List Buf} (h : sendBody bufs s = some s') :
    Sends s s' (bufs.map Buf.bytes).flatten := by
  induction bufs generalizing s with
  | nil =>
      cases h
      exact Sends.refl _
  | cons buf bufs ih =>
      simp only [sendBody, Option.bind_eq_bind, Option.bind_eq_some_iff] at h
      obtain ⟨mid, hbuf, h⟩ := h
      exact (sendBuf_sends hbuf).trans (ih h)

theorem paddingOf_lt (len : Nat) : paddingOf len < 256 := by
  unfold paddingOf
  split <;> omega

theorem decodeStream_pieces (pieces : List Bytes) (hle : ∀ piece ∈ pieces, piece.length ≤ 32 * 1024) :
    decodeStream ((pieces.map stdinRecord).flatten ++ recordHeader stdin 0 0) =
      some ((pieces.map fun piece => (stdin, piece)) ++ [(stdin, [])]) := by
  induction pieces with
  | nil => exact decodeStream_record stdin [] (by decide) 0 (by decide) rfl
  | cons piece pieces ih =>
      have hpiece := hle piece (by simp)
      have hrest := ih fun other hother => hle other (List.mem_cons_of_mem piece hother)
      have hrecord := decodeStream_record stdin piece (by omega) (paddingOf piece.length) (paddingOf_lt _) hrest
      simpa only [List.map_cons, List.flatten_cons, stdinRecord, List.append_assoc, List.cons_append] using hrecord

-- The parameters and the headers in one record
def paramsContent (conf : LocConf) (headers : List Header) : Bytes :=
  writeParams conf.params ++ if conf.passRequestHeaders then headerBytes conf headers else []

theorem createRequest_spec (h : createRequest conf headers body answers = some out) :
    (paramsContent conf headers).length ≤ 65535 ∧
      ∃ pieces : List Bytes, pieces.flatten = sentBody conf body ∧
        decodeStream (out.map Out.bytes).flatten =
          some ((beginRequest, [0, 1, 0, 0, 0, 0, 0, 0]) :: (params, paramsContent conf headers) :: (params, []) ::
            ((pieces.map fun piece => (stdin, piece)) ++ [(stdin, [])])) ∧
        ∀ size bytes, Out.temp size bytes ∈ out → bytes.length ≤ size := by
  simp only [createRequest, Option.bind_eq_bind, Option.bind_eq_some_iff] at h
  obtain ⟨⟨len, ignored, answers₁⟩, hcount, h⟩ := h
  obtain ⟨hwrite, hlen⟩ := countRequest_eq hcount
  dsimp only at h
  split at h
  · cases h
  · rename_i hle
    have hcontent : (paramsContent conf headers).length ≤ 65535 := by
      rw [paramsContent, ← hlen]
      omega
    refine ⟨hcontent, ?_⟩
    simp only [Option.bind_eq_some_iff] at h
    obtain ⟨answers₂, -, answers₃, -, h⟩ := h
    rw [← List.append_assoc (writeParams conf.params), hwrite] at h
    -- The chain with the first buffer only, and what the loops over the body make of it.
    have hsent : ∀ s' : Sending,
        Sends ⟨[], 8 + 8 + 8 + len + paddingOf len + 8 + 8, requestStart ++ (recordHeader params len (paddingOf len) ++
          (paramsContent conf headers ++ (List.replicate (paddingOf len) 0 ++ recordHeader params 0 0))), answers₃⟩ s'
          (sentBody conf body) →
        ∃ pieces : List Bytes, pieces.flatten = sentBody conf body ∧
          decodeStream ((s'.put (recordHeader stdin 0 0)).map Out.bytes).flatten =
            some ((beginRequest, [0, 1, 0, 0, 0, 0, 0, 0]) :: (params, paramsContent conf headers) :: (params, []) ::
              ((pieces.map fun piece => (stdin, piece)) ++ [(stdin, [])])) ∧
          ∀ size bytes, Out.temp size bytes ∈ s'.put (recordHeader stdin 0 0) → bytes.length ≤ size := by
      rintro s' ⟨pieces, hpieces, hsmall, hbefore, hfits⟩
      refine ⟨pieces, hpieces, ?_, ?_⟩
      · have hbody := decodeStream_pieces pieces hsmall
        have hempty := decodeStream_record params [] (by decide) 0 (by decide) hbody
        have hparams := decodeStream_record params (paramsContent conf headers) (by omega)
          (paddingOf (paramsContent conf headers).length) (paddingOf_lt _) hempty
        have hstart := decodeStream_record beginRequest [0, 1, 0, 0, 0, 0, 0, 0] (by decide) 0 (by decide) hparams
        have hcontentLen : (paramsContent conf headers).length = len := hlen.symm
        rw [hcontentLen] at hstart
        rw [Sending.put_bytes, hbefore, ← hstart]
        refine congrArg decodeStream ?_
        simp only [Sending.before, requestStart, List.map_nil, List.flatten_nil, List.nil_append, List.append_assoc,
          List.length_cons, List.length_nil, List.replicate_zero, Nat.reduceAdd]
      · have hfirst := hfits ⟨by simp, by
          simp only [requestStart, recordHeader, List.length_append, List.length_cons, List.length_nil,
            List.length_replicate]
          rw [paramsContent, ← hlen]
          omega⟩
        exact fun size bytes hmem => hfirst.put rfl hmem
    rw [sentBody] at hsent ⊢
    split at h
    · rename_i hpass
      rw [if_pos hpass] at hsent ⊢
      simp only [Option.bind_eq_some_iff] at h
      obtain ⟨s', hbody, h⟩ := h
      cases h
      exact hsent s' (by simpa only [paramsContent, List.append_assoc] using sendBody_sends hbody)
    · rename_i hpass
      rw [if_neg hpass] at hsent ⊢
      cases h
      exact hsent _ (by simpa only [paramsContent, List.append_assoc] using Sends.refl _)

theorem createRequest_faithful_iff (h : createRequest conf headers body answers = some out) :
    Faithful conf headers body out ↔ ∀ p ∈ conf.params, p.key.length ≤ 127 := by
  obtain ⟨hlen, pieces, hpieces, hdecode, hfits⟩ := createRequest_spec h
  constructor
  · rintro ⟨⟨content, pieces', hdecode', hparams, -⟩, -⟩
    rw [hdecode, Option.some.injEq, List.cons.injEq, List.cons.injEq] at hdecode'
    rw [← (Prod.mk.inj hdecode'.2.1).2] at hparams
    exact (decodeParams_iff hlen).mp hparams
  · intro hnames
    exact ⟨⟨paramsContent conf headers, pieces, hdecode, (decodeParams_iff hlen).mpr hnames, hpieces⟩, hfits⟩

-- With memory, the call returns unless the record is too big: no loop over the body runs out of fuel.
theorem add_some (h : s.answers = []) (buf : Buf) : ∃ s', s.add buf = some s' ∧ s'.answers = [] := by
  refine ⟨⟨s.put (recordHeader stdin buf.bytes.length (paddingOf buf.bytes.length)) ++ [.body buf],
    8 + paddingOf buf.bytes.length, List.replicate (paddingOf buf.bytes.length) 0, []⟩, ?_, rfl⟩
  rw [Sending.add, h]
  rfl

theorem sendBuf_some (h : s.answers = []) (inFile : Bool) {fuel : Nat} {rest : Bytes}
    (hfuel : rest.length ≤ 32 * 1024 * fuel) (hpos : 0 < fuel) :
    ∃ s', sendBuf inFile fuel rest s = some s' ∧ s'.answers = [] := by
  induction fuel generalizing rest s with
  | zero => omega
  | succ fuel ih =>
      obtain ⟨mid, hadd, hmid⟩ := add_some h ⟨inFile, rest.take (32 * 1024)⟩
      simp only [sendBuf, hadd, Option.bind_eq_bind, Option.bind_some]
      split
      · exact ⟨mid, rfl, hmid⟩
      · refine ih hmid ?_ ?_
        · rw [List.length_drop]
          omega
        · omega

theorem sendBody_some (h : s.answers = []) (bufs : List Buf) : ∃ s', sendBody bufs s = some s' ∧ s'.answers = [] := by
  induction bufs generalizing s with
  | nil => exact ⟨s, rfl, h⟩
  | cons buf bufs ih =>
      obtain ⟨mid, hbuf, hmid⟩ : ∃ mid, sendBuf buf.inFile (buf.bytes.length / (32 * 1024) + 1) buf.bytes s = some mid ∧
          mid.answers = [] := sendBuf_some h buf.inFile (by omega) (by omega)
      obtain ⟨s', hbody, hs'⟩ := ih hmid
      exact ⟨s', by simp [sendBody, hbuf, hbody], hs'⟩

theorem countHeaders_some (conf : LocConf) (headers : List Header) (i allocated len : Nat) (ignored : List Nat) :
    ∃ len' ignored', countHeaders conf headers i allocated len ignored [] = some (len', ignored', []) := by
  induction headers generalizing i allocated len ignored with
  | nil => exact ⟨len, ignored, rfl⟩
  | cons header headers ih =>
      rw [countHeaders]
      simp only [ask, ite_self]
      split
      · split
        · exact ih _ _ _ _
        · exact ih _ _ _ _
      · exact ih _ _ _ _

theorem createRequest_some (conf : LocConf) (headers : List Header) (body : List Buf)
    (hlen : (paramsContent conf headers).length ≤ 65535) : ∃ out, createRequest conf headers body [] = some out := by
  have hcount : ∃ len ignored, countRequest conf headers [] = some (len, ignored, []) := by
    rw [countRequest]
    dsimp only
    split
    · simp only [ask, Option.bind_eq_bind, Option.bind_some, ite_self]
      exact countHeaders_some conf headers 0 0 _ []
    · exact ⟨_, _, rfl⟩
  obtain ⟨len, ignored, hcount⟩ := hcount
  have heq := (countRequest_eq hcount).2
  rw [← paramsContent] at heq
  simp only [createRequest, hcount, Option.bind_eq_bind, Option.bind_some, ask]
  rw [if_neg (by omega)]
  split
  · obtain ⟨s', hbody, -⟩ := sendBody_some (s := ⟨[], 8 + 8 + 8 + len + paddingOf len + 8 + 8,
      requestStart ++ (recordHeader params len (paddingOf len) ++ (writeParams conf.params ++
        ((if conf.passRequestHeaders then writeHeaders ignored headers 0 else []) ++
          (List.replicate (paddingOf len) 0 ++ recordHeader params 0 0)))), []⟩) rfl body
    exact ⟨_, by rw [hbody]; rfl⟩
  · exact ⟨_, rfl⟩

def phpConf : LocConf where
  params := [⟨ngxString "SCRIPT_FILENAME", [ngxString "/srv", ngxString "/index.php"]⟩]
  passRequestHeaders := true
  passRequestBody := true
  headerParams := 1
  headersHash := fun _ key => key == ngxString "proxy"

theorem createRequest_faithful_iff_php :
    ∃ out, createRequest phpConf [⟨ngxString "Host", ngxString "a"⟩, ⟨ngxString "Proxy", ngxString "b"⟩]
        [⟨false, ngxString "x=1"⟩] [] = some out ∧
      Faithful phpConf [⟨ngxString "Host", ngxString "a"⟩, ⟨ngxString "Proxy", ngxString "b"⟩] [⟨false, ngxString "x=1"⟩] out := by
  obtain ⟨out, hout⟩ := createRequest_some phpConf
    [⟨ngxString "Host", ngxString "a"⟩, ⟨ngxString "Proxy", ngxString "b"⟩] [⟨false, ngxString "x=1"⟩] (by decide)
  exact ⟨out, hout, (createRequest_faithful_iff hout).mpr (by decide)⟩

def longConf : LocConf where
  params := [⟨List.replicate 128 65, [[66]]⟩]
  passRequestHeaders := false
  passRequestBody := true
  headerParams := 0
  headersHash := fun _ _ => false

-- The length of a name of 128 bytes is written as the byte 128, with which a length of four bytes begins.
theorem long_name_misread :
    ∃ out, createRequest longConf [] [] [] = some out ∧ ¬ Faithful longConf [] [] out := by
  obtain ⟨out, hout⟩ := createRequest_some longConf [] [] (by decide +kernel)
  refine ⟨out, hout, ?_⟩
  rintro ⟨⟨content, pieces, hdecode, hparams, -⟩, -⟩
  obtain ⟨hlen, sent, -, hdecode', -⟩ := createRequest_spec hout
  rw [hdecode, Option.some.injEq, List.cons.injEq, List.cons.injEq] at hdecode'
  rw [(Prod.mk.inj hdecode'.2.1).2] at hparams
  have hnames := (decodeParams_iff hlen).mp hparams _ (List.mem_singleton.mpr rfl)
  have hlong : (List.replicate 128 (65 : UInt8)).length ≤ 127 := hnames
  rw [List.length_replicate] at hlong
  omega

end Nginx.Fastcgi
