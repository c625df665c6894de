import Nginx.Http.RangeFilter.Singlepart

namespace Nginx.RangeFilter

open ByteMemory Printf Window

-- A boundary up to the range
def boundaryText (boundary : BitVec 64) (h : HeadersOut) : Bytes :=
  ngxString "\r\n--" ++ atomicDigits boundary ++
    (if h.charset.length ≠ 0 then
      ngxString "\r\nContent-Type: " ++ h.contentType ++ ngxString "; charset=" ++ h.charset
    else if h.contentType.length ≠ 0 then ngxString "\r\nContent-Type: " ++ h.contentType
    else []) ++
    ngxString "\r\nContent-Range: bytes "

def rangeText (contentLength : Int) (range : Range) : Bytes :=
  decimal range.start ++ ngxString "-" ++ decimal (range.stop - 1) ++ ngxString "/" ++ decimal contentLength ++
    ngxString "\r\n\r\n"

-- The last boundary
def closingText (boundary : BitVec 64) : Bytes :=
  ngxString "\r\n--" ++ atomicDigits boundary ++ ngxString "--\r\n"

-- An address has room for a text.
theorem sprintf_all {fmt : Bytes} {args : List Arg} {text : Bytes} (h : Renders fmt args text) (addr : Nat)
    (hroom : addr + text.length ≤ 2 ^ 64 - 1) : sprintf addr fmt args = some text := by
  rw [sprintf, vslprintf_eq_take h, List.take_of_length_le (by omega)]

theorem boundaryText_length (boundary : BitVec 64) (h : HeadersOut) :
    (boundaryText boundary h).length ≤ boundaryHeaderRoom h ∧ 4 + int64Len ≤ (boundaryText boundary h).length := by
  have hopen : (ngxString "\r\n--").length = 4 := ngxString_length _
  have htype : (ngxString "\r\nContent-Type: ").length = 16 := ngxString_length _
  have hset : (ngxString "; charset=").length = 10 := ngxString_length _
  have hrange : (ngxString "\r\nContent-Range: bytes ").length = 23 := ngxString_length _
  have hdigits := atomicDigits_length boundary
  unfold boundaryText boundaryHeaderRoom
  split
  · simp only [List.length_append, hopen, htype, hset, hrange, hdigits]
    omega
  · split <;> simp only [List.length_append, List.length_nil, hopen, htype, hrange, hdigits] <;> omega

theorem opening_renders {fmt : Bytes} {args : List Arg} {text : Bytes} (h : Renders fmt args text)
    (boundary : BitVec 64) :
    Renders (ngxString "\r\n--" ++ 37 :: 48 :: 109 :: 117 :: 65 :: fmt) (.word boundary :: args)
      (ngxString "\r\n--" ++ (atomicDigits boundary ++ text)) := by
  apply Renders.text _ _ (by decide)
  exact h.atomic boundary

theorem plain_renders (text : Bytes) (h : 37 ∉ text) : Renders text [] text := by
  have hrender := (Renders.done []).text text h
  rwa [List.append_nil] at hrender

theorem boundaryHeader_eq (addr : Nat) (boundary : BitVec 64) (h : HeadersOut)
    (hroom : addr + boundaryHeaderRoom h ≤ 2 ^ 64 - 1) :
    boundaryHeader addr boundary h = some (boundaryText boundary h) := by
  have hlen := (boundaryText_length boundary h).1
  have hplace : addr + (boundaryText boundary h).length ≤ 2 ^ 64 - 1 := by omega
  have hend := plain_renders (ngxString "\r\nContent-Range: bytes ") (by decide)
  unfold boundaryHeader
  unfold boundaryText at hplace ⊢
  split
  · rename_i hset
    have hfmt : ngxString "\r\n--%0muA\r\nContent-Type: %V; charset=%V\r\nContent-Range: bytes " =
        ngxString "\r\n--" ++ 37 :: 48 :: 109 :: 117 :: 65 :: (ngxString "\r\nContent-Type: " ++
          37 :: 86 :: (ngxString "; charset=" ++ 37 :: 86 :: ngxString "\r\nContent-Range: bytes ")) := by
      rw [ngxString_ofList, ngxString_ofList, ngxString_ofList, ngxString_ofList, ngxString_ofList]
      rfl
    rw [if_pos hset] at hplace
    refine sprintf_all ?_ addr hplace
    simp only [hfmt, List.append_assoc]
    apply opening_renders
    apply Renders.text _ _ (by decide)
    apply Renders.ngxStr
    apply Renders.text _ _ (by decide)
    apply Renders.ngxStr
    exact hend
  · rename_i hset
    rw [if_neg hset] at hplace
    split
    · rename_i htype
      have hfmt : ngxString "\r\n--%0muA\r\nContent-Type: %V\r\nContent-Range: bytes " =
          ngxString "\r\n--" ++ 37 :: 48 :: 109 :: 117 :: 65 :: (ngxString "\r\nContent-Type: " ++
            37 :: 86 :: ngxString "\r\nContent-Range: bytes ") := by
        rw [ngxString_ofList, ngxString_ofList, ngxString_ofList, ngxString_ofList]
        rfl
      rw [if_pos htype] at hplace
      refine sprintf_all ?_ addr hplace
      simp only [hfmt, List.append_assoc]
      apply opening_renders
      apply Renders.text _ _ (by decide +kernel)
      apply Renders.ngxStr
      exact hend
    · rename_i htype
      have hfmt : ngxString "\r\n--%0muA\r\nContent-Range: bytes " =
          ngxString "\r\n--" ++ 37 :: 48 :: 109 :: 117 :: 65 :: ngxString "\r\nContent-Range: bytes " := by
        rw [ngxString_ofList, ngxString_ofList, ngxString_ofList]
        rfl
      rw [if_neg htype] at hplace
      refine sprintf_all ?_ addr hplace
      simp only [hfmt, List.append_assoc, List.nil_append]
      apply opening_renders
      exact hend

theorem contentType_eq (addr : Nat) (boundary : BitVec 64) (hroom : addr + contentTypeRoom ≤ 2 ^ 64 - 1) :
    ∃ text, sprintf addr (ngxString "multipart/byteranges; boundary=%0muA") [.word boundary] = some text ∧
      text.length ≤ contentTypeRoom := by
  have hfmt : ngxString "multipart/byteranges; boundary=%0muA" =
      ngxString "multipart/byteranges; boundary=" ++ [37, 48, 109, 117, 65] := by
    rw [ngxString_ofList, ngxString_ofList]
    rfl
  have hrender : Renders (ngxString "multipart/byteranges; boundary=%0muA") [.word boundary]
      (ngxString "multipart/byteranges; boundary=" ++ (atomicDigits boundary ++ [])) := by
    rw [hfmt]
    apply Renders.text _ _ (by decide +kernel)
    exact (Renders.done []).atomic boundary
  have hlen : (ngxString "multipart/byteranges; boundary=" ++ (atomicDigits boundary ++ [])).length ≤
      contentTypeRoom := by
    have htext : (ngxString "multipart/byteranges; boundary=").length = 31 := ngxString_length _
    rw [List.append_nil, List.length_append, atomicDigits_length, htext]
    unfold contentTypeRoom
    omega
  exact ⟨_, sprintf_all hrender addr (by omega), hlen⟩

theorem decimal_le (n : Int) (h0 : 0 ≤ n) (h : n < 2 ^ 63) : (decimal n).length ≤ 20 := by
  have habs : n.natAbs < 10 ^ 19 := by omega
  have hlog : Nat.log 10 n.natAbs < 19 := Nat.log_lt_of_lt_pow' (by omega) habs
  rw [decimal_length n (Nat.lt_trans habs (by decide)), decimalWidth, if_neg (by omega)]
  omega

theorem ofInt_toInt_of_range (n : Int) (h0 : 0 ≤ n) (h : n < 2 ^ 63) : (BitVec.ofInt 64 n).toInt = n := by
  rw [BitVec.toInt_ofInt]
  exact toInt64_of_range n (by omega) h

-- A range as the parser leaves it
structure Range.Within (range : Range) (len : Int) : Prop where
  start : 0 ≤ range.start
  order : range.start < range.stop
  stop : range.stop ≤ len

theorem contentRange_eq (addr : Nat) (len : Int) (range : Range) (h : range.Within len) (hlen : len < 2 ^ 63)
    (hroom : addr + contentRangeRoom ≤ 2 ^ 64 - 1) :
    contentRange addr len range = some (rangeText len range) ∧ (rangeText len range).length ≤ contentRangeRoom := by
  have hstart := h.start
  have horder := h.order
  have hstop := h.stop
  have hfit : (rangeText len range).length ≤ contentRangeRoom := by
    have hone := decimal_le range.start hstart (by omega)
    have htwo := decimal_le (range.stop - 1) (by omega) (by omega)
    have hthree := decimal_le len (by omega) hlen
    have hdash : (ngxString "-").length = 1 := ngxString_length _
    have hslash : (ngxString "/").length = 1 := ngxString_length _
    have hend : (ngxString "\r\n\r\n").length = 4 := ngxString_length _
    simp only [rangeText, contentRangeRoom, List.length_append, hdash, hslash, hend]
    omega
  refine ⟨?_, hfit⟩
  have hfmt : ngxString "%O-%O/%O\r\n\r\n" =
      37 :: 79 :: (ngxString "-" ++ 37 :: 79 :: (ngxString "/" ++ 37 :: 79 :: ngxString "\r\n\r\n")) := by
    rw [ngxString_ofList, ngxString_ofList, ngxString_ofList, ngxString_ofList]
    rfl
  have hrender : Renders (ngxString "%O-%O/%O\r\n\r\n")
      [.word (BitVec.ofInt 64 range.start), .word (BitVec.ofInt 64 (range.stop - 1)), .word (BitVec.ofInt 64 len)]
      (decimal (BitVec.ofInt 64 range.start).toInt ++ (ngxString "-" ++
        (decimal (BitVec.ofInt 64 (range.stop - 1)).toInt ++ (ngxString "/" ++
          (decimal (BitVec.ofInt 64 len).toInt ++ ngxString "\r\n\r\n"))))) := by
    rw [hfmt]
    apply Renders.off
    apply Renders.text _ _ (by decide)
    apply Renders.off
    apply Renders.text _ _ (by decide)
    apply Renders.off
    exact plain_renders _ (by decide)
  rw [ofInt_toInt_of_range range.start hstart (by omega),
    ofInt_toInt_of_range (range.stop - 1) (by omega) (by omega), ofInt_toInt_of_range len (by omega) hlen] at hrender
  refine sprintf_all ?_ addr (by omega)
  simpa only [rangeText, List.append_assoc] using hrender

-- The length that the header announces, as a size_t
theorem multipartRanges_eq (alloc : Nat → Nat) (headerLen : Nat) (len : Int) (hlen : len < 2 ^ 63) (i total : Nat)
    (ranges : List Range) (hranges : ∀ r ∈ ranges, r.Within len)
    (hroom : ∀ j, i ≤ j → j < i + ranges.length → alloc j + contentRangeRoom ≤ 2 ^ 64 - 1) :
    ∃ total', multipartRanges alloc headerLen len i total ranges =
        some (total', ranges.map fun r => (r, rangeText len r)) ∧
      total' % 2 ^ 64 =
        (total + (ranges.map fun r => headerLen + (rangeText len r).length + (r.stop - r.start).toNat).sum) % 2 ^ 64 := by
  induction ranges generalizing i total with
  | nil => exact ⟨total, rfl, by simp⟩
  | cons range ranges ih =>
      have hrange := hranges range List.mem_cons_self
      have hfirst := hroom i (Nat.le_refl i) (by rw [List.length_cons]; omega)
      have htext := (contentRange_eq (alloc i) len range hrange hlen hfirst).1
      have hsize : toSize (range.stop - range.start) = (range.stop - range.start).toNat := by
        have hstart := hrange.start
        have horder := hrange.order
        have hstop := hrange.stop
        have hcast := toSize_of_nonneg (range.stop - range.start) (by omega) (by omega)
        omega
      obtain ⟨total', hrest, htotal⟩ :=
        ih (i + 1) ((total + headerLen + (rangeText len range).length + (range.stop - range.start).toNat) % 2 ^ 64)
          (fun r hr => hranges r (List.mem_cons_of_mem _ hr))
          (fun j hj hlt => hroom j (by omega) (by rw [List.length_cons]; omega))
      refine ⟨total', ?_, ?_⟩
      · rw [multipartRanges, htext, Option.bind_eq_bind, Option.bind_some]
        dsimp only
        rw [hsize, hrest]
        rfl
      · rw [htotal, List.map_cons, List.sum_cons, Nat.mod_add_mod]
        congr 1
        omega

variable {w : World}

-- The data of a range
theorem rangeBuf_bytes (buf : Buf) (h : buf.Wf w) (range : Range) (hrange : range.Within buf.size) :
    (rangeBuf buf range).bytes w = slice range.start.toNat range.stop.toNat (buf.bytes w) := by
  have hstart := hrange.start
  have horder := hrange.order
  have hstop := hrange.stop
  have hload : ∀ (mem : Memory) (a : Nat), load mem (a + range.start.toNat)
      (a + range.stop.toNat - (a + range.start.toNat)) = slice range.start.toNat range.stop.toNat (load mem a buf.size) := by
    intro mem a
    have hcount : a + range.stop.toNat - (a + range.start.toNat) = range.stop.toNat - range.start.toNat := by omega
    rw [hcount, load_drop mem a range.stop.toNat range.start.toNat (by omega),
      load_take mem a buf.size range.stop.toNat (by omega), slice]
  have hmemory : (rangeBuf buf range).inMemory = buf.inMemory := rfl
  unfold Buf.bytes
  rw [hmemory]
  cases hmem : buf.inMemory with
  | true =>
      have hsize : buf.size = buf.last - buf.pos := by rw [Buf.size, hmem, if_pos rfl]
      simp only [if_true, rangeBuf, hmem]
      rw [hload, hsize]
  | false =>
      have hsize : buf.size = buf.fileLast - buf.filePos := by rw [Buf.size, hmem, if_neg Bool.false_ne_true]
      cases hfile : buf.inFile with
      | true =>
          simp only [Bool.false_eq_true, if_false, if_true, rangeBuf, hfile]
          rw [hload, hsize]
      | false =>
          have hzero := h.placeless_size hmem hfile
          omega

-- A boundary, the range and the data
def partText (boundary : BitVec 64) (h : HeadersOut) (body : Bytes) (range : Range) : Bytes :=
  boundaryText boundary h ++ rangeText h.contentLengthN range ++ slice range.start.toNat range.stop.toNat body

def multipartText (boundary : BitVec 64) (h : HeadersOut) (body : Bytes) (ranges : List Range) : Bytes :=
  ranges.flatMap (partText boundary h body) ++ closingText boundary

theorem partText_length (boundary : BitVec 64) (h : HeadersOut) (body : Bytes) (range : Range)
    (hrange : range.Within body.length) :
    (partText boundary h body range).length =
      (boundaryText boundary h).length + (rangeText h.contentLengthN range).length +
        (range.stop - range.start).toNat := by
  have hstart := hrange.start
  have hstop := hrange.stop
  rw [partText, List.length_append, List.length_append, slice_length _ _ _ (by omega)]
  omega

theorem closingText_length (boundary : BitVec 64) : (closingText boundary).length = 4 + int64Len + 4 := by
  have hopen : (ngxString "\r\n--").length = 4 := ngxString_length _
  have hclose : (ngxString "--\r\n").length = 4 := ngxString_length _
  rw [closingText, List.length_append, List.length_append, atomicDigits_length, hopen, hclose]

-- The last boundary is made from the front of the others.
theorem closingText_eq (boundary : BitVec 64) (h : HeadersOut) :
    (boundaryText boundary h).take (4 + int64Len) ++ ngxString "--\r\n" = closingText boundary := by
  have hlen : (ngxString "\r\n--" ++ atomicDigits boundary).length = 4 + int64Len := by
    have hopen : (ngxString "\r\n--").length = 4 := ngxString_length _
    rw [List.length_append, atomicDigits_length, hopen]
  rw [closingText, boundaryText, List.append_assoc (ngxString "\r\n--" ++ atomicDigits boundary),
    List.take_left' hlen]

theorem multipartText_length (boundary : BitVec 64) (h : HeadersOut) (body : Bytes) (ranges : List Range)
    (hranges : ∀ r ∈ ranges, r.Within body.length) :
    (multipartText boundary h body ranges).length =
      4 + int64Len + 4 + (ranges.map fun r => (boundaryText boundary h).length +
        (rangeText h.contentLengthN r).length + (r.stop - r.start).toNat).sum := by
  rw [multipartText, List.length_append, closingText_length, List.length_flatMap, Nat.add_comm]
  congr 2
  refine List.map_congr_left fun r hr => ?_
  exact partText_length boundary h body r (hranges r hr)

theorem multipartBody_bytes (boundary : BitVec 64) (h : HeadersOut) (ranges : List Range) (buf : Buf)
    (hwf : buf.Wf w) (hranges : ∀ r ∈ ranges, r.Within buf.size) :
    outBytes w (multipartBody
      ⟨boundaryText boundary h, ranges.map fun r => (r, rangeText h.contentLengthN r)⟩ buf) =
        multipartText boundary h (buf.bytes w) ranges := by
  have hparts : ∀ rs : List Range, (∀ r ∈ rs, r.Within buf.size) →
      outBytes w ((rs.map fun r => (r, rangeText h.contentLengthN r)).flatMap fun part =>
        [.text (boundaryText boundary h) false, .text part.2 false, .buf (rangeBuf buf part.1)]) =
          rs.flatMap (partText boundary h (buf.bytes w)) := by
    intro rs hrs
    induction rs with
    | nil => rfl
    | cons r rs ih =>
        have hrest := ih (fun s hs => hrs s (List.mem_cons_of_mem _ hs))
        have hdata := rangeBuf_bytes buf hwf r (hrs r List.mem_cons_self)
        rw [List.map_cons, List.flatMap_cons, List.flatMap_cons, ← hrest, outBytes, outBytes, List.flatMap_append]
        congr 1
        simp only [List.flatMap_cons, List.flatMap_nil, List.append_nil, Out.bytes]
        rw [hdata, partText, List.append_assoc]
  rw [multipartBody, outBytes, List.flatMap_append, multipartText]
  congr 1
  · exact hparts ranges hranges
  · rw [← closingText_eq boundary h]
    simp [Out.bytes]

theorem toInt64_congr (m n : Nat) (h : m % 2 ^ 64 = n % 2 ^ 64) : toInt64 m = toInt64 n := by
  have hmod : (m : Int) % ((2 ^ 64 : Nat) : Int) = n % ((2 ^ 64 : Nat) : Int) := by omega
  unfold toInt64
  rw [Int.bmod_def, Int.bmod_def, hmod]

-- The addresses of the blocks of ngx_http_range_multipart_header; none of them reaches the end of the memory.
structure Placed (alloc : Nat → Nat) (h : HeadersOut) (ranges : Nat) : Prop where
  header : alloc 0 + boundaryHeaderRoom h ≤ 2 ^ 64 - 1
  contentType : alloc 1 + contentTypeRoom ≤ 2 ^ 64 - 1
  ranges : ∀ i, 2 ≤ i → i < 2 + ranges → alloc i + contentRangeRoom ≤ 2 ^ 64 - 1

-- The texts stay in their blocks.
structure Fits (h h' : HeadersOut) (ctx : Multipart) : Prop where
  header : ctx.boundaryHeader.length ≤ boundaryHeaderRoom h
  closing : 4 + int64Len ≤ ctx.boundaryHeader.length
  contentType : h'.contentType.length ≤ contentTypeRoom
  ranges : ∀ p ∈ ctx.ranges, p.2.length ≤ contentRangeRoom

theorem multipart_announced (alloc : Nat → Nat) (boundary : BitVec 64) (ranges : List Range) (h : HeadersOut)
    (buf : Buf) (cl : Chain) (hplaced : Placed alloc h ranges.length) (htwo : 2 ≤ ranges.length)
    (hranges : ∀ r ∈ ranges, r.Within h.contentLengthN) (hmax : h.contentLengthN < 2 ^ 63) (hwf : buf.Wf w)
    (hsize : (buf.size : Int) = h.contentLengthN) :
    ∃ ctx h' offset out, multipartHeader alloc boundary ranges h = some (ctx, h') ∧
      multipartFilter ctx 0 (buf :: cl) = some (offset, out) ∧ Fits h h' ctx ∧
      outBytes w out = multipartText boundary h (buf.bytes w) ranges ∧
      h'.contentLengthN = toInt64 (outBytes w out).length ∧
      ((outBytes w out).length < 2 ^ 63 → h'.contentLengthN = (outBytes w out).length) := by
  obtain ⟨contentType, htype, htypeLen⟩ := contentType_eq (alloc 1) boundary hplaced.contentType
  obtain ⟨total, hloop, htotal⟩ := multipartRanges_eq alloc (boundaryText boundary h).length h.contentLengthN hmax 2
    (4 + int64Len + 4) ranges hranges hplaced.ranges
  have hwithin : ∀ r ∈ ranges, r.Within buf.size := by
    intro r hr
    rw [hsize]
    exact hranges r hr
  have hheader : multipartHeader alloc boundary ranges h = some
      (⟨boundaryText boundary h, ranges.map fun r => (r, rangeText h.contentLengthN r)⟩,
        ⟨contentType, [], toInt64 total⟩) := by
    rw [multipartHeader, boundaryHeader_eq (alloc 0) boundary h hplaced.header, Option.bind_eq_bind, Option.bind_some,
      htype, Option.bind_eq_bind, Option.bind_some, hloop]
    rfl
  obtain ⟨first, hfirst⟩ : ∃ r, r ∈ ranges := List.exists_mem_of_length_pos (by omega)
  have hspecial : ¬buf.special = true := by
    intro hspecial
    have hbytes := congrArg List.length (hwf.special_bytes hspecial)
    have hin := hwithin first hfirst
    have hstart := hin.start
    have horder := hin.order
    have hstop := hin.stop
    rw [Buf.bytes_length, List.length_nil] at hbytes
    omega
  have htest : testOverlapped ((ranges.map fun r => (r, rangeText h.contentLengthN r)).map Prod.fst) 0 buf =
      some (buf.size : Int) := by
    have hfst : (ranges.map fun r => (r, rangeText h.contentLengthN r)).map Prod.fst = ranges := by
      rw [List.map_map]
      exact List.map_id ranges
    have hnone : (ranges.any fun r => decide ((0 : Int) > r.start ∨ 0 + (buf.size : Int) < r.stop)) = false := by
      rw [List.any_eq_false]
      intro r hr
      have hstart := (hwithin r hr).start
      have hstop := (hwithin r hr).stop
      rw [decide_eq_true_eq]
      omega
    rw [testOverlapped, hfst, if_neg (by decide), hnone, Bool.and_false, if_neg Bool.false_ne_true]
  have hout := multipartBody_bytes boundary h ranges buf hwf hwithin
  have hbody : (buf.bytes w).length = buf.size := Buf.bytes_length buf
  have hlen := multipartText_length boundary h (buf.bytes w) ranges (by rw [hbody]; exact hwithin)
  have hannounced : toInt64 total = toInt64 (multipartText boundary h (buf.bytes w) ranges).length := by
    apply toInt64_congr
    rw [hlen]
    exact htotal
  refine ⟨_, _, buf.size, _, hheader, ?_, ⟨?_, ?_, htypeLen, ?_⟩, hout, ?_, ?_⟩
  · rw [multipartFilter, if_neg hspecial, htest]
    rfl
  · exact (boundaryText_length boundary h).1
  · exact (boundaryText_length boundary h).2
  · intro p hp
    obtain ⟨r, hr, rfl⟩ := List.mem_map.mp hp
    exact (contentRange_eq 0 h.contentLengthN r (hranges r hr) hmax (by unfold contentRangeRoom; omega)).2
  · dsimp only
    rw [hout, hannounced]
  · intro hlt
    rw [hout] at hlt ⊢
    dsimp only
    rw [hannounced]
    exact toInt64_of_range _ (by omega) (by omega)

theorem multipart_announced_two :
    let h : HeadersOut := ⟨ngxString "text/plain", [], 4⟩
    ∃ ctx h' offset out, multipartHeader (fun _ => 4096) 7 [⟨0, 2⟩, ⟨1, 4⟩] h = some (ctx, h') ∧
      multipartFilter ctx 0 [memoryBuf 0 4, lastBuf] = some (offset, out) ∧ Fits h h' ctx ∧
      outBytes world out = multipartText 7 h [0, 1, 2, 3] [⟨0, 2⟩, ⟨1, 4⟩] ∧
      h'.contentLengthN = toInt64 (outBytes world out).length ∧
      ((outBytes world out).length < 2 ^ 63 → h'.contentLengthN = (outBytes world out).length) :=
  multipart_announced (fun _ => 4096) 7 [⟨0, 2⟩, ⟨1, 4⟩] ⟨ngxString "text/plain", [], 4⟩ (memoryBuf 0 4) [lastBuf]
    ⟨by decide, by decide, fun _ _ _ => by decide⟩ (by decide)
    (by
      intro r hr
      rcases List.mem_cons.mp hr with rfl | hr
      · exact ⟨by decide, by decide, by decide⟩
      · rw [List.mem_singleton.mp hr]
        exact ⟨by decide, by decide, by decide⟩)
    (by decide) (memoryBuf_wf 0 4 (by decide)) rfl

end Nginx.RangeFilter
