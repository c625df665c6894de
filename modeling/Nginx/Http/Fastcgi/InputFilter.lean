import Nginx.Http.Fastcgi.Reader

namespace Nginx.Fastcgi

open Stream

-- A record with version 1 and request id 1, of one of the three types that the application sends
structure Record where
  type : UInt8
  content : Bytes
  padding : Nat
  type_mem : type = stdout ∨ type = stderr ∨ type = endRequest
  content_lt : content.length < 2 ^ 16
  padding_lt : padding < 2 ^ 8

def Record.header (r : Record) : Bytes :=
  [1, r.type, 0, 1, UInt8.ofNat (r.content.length / 256), UInt8.ofNat r.content.length, UInt8.ofNat r.padding]

-- The reserved byte and the bytes of the padding may be any.
inductive Encodes : List Record → Bytes → Prop where
  | nil : Encodes [] []
  | cons (r : Record) (records : List Record) (bs : Bytes) (reserved : UInt8) (fill : Bytes)
      (hfill : fill.length = r.padding) (h : Encodes records bs) :
      Encodes (r :: records) (r.header ++ reserved :: (r.content ++ (fill ++ bs)))

-- The contents of the STDOUT records up to the first END_REQUEST
def stdoutData : List Record → Bytes
  | [] => []
  | r :: records =>
      if r.type = endRequest then []
      else if r.type = stdout then r.content ++ stdoutData records else stdoutData records

-- No record without content has padding, and nothing that a reader minds follows the header of an END_REQUEST.
def Clean : List Record → Prop
  | [] => True
  | r :: records =>
      if r.type = endRequest then records = [] ∧ r.padding = 0 ∧ (r.content = [] ∨ r.content = [1])
      else (r.content = [] → r.padding = 0) ∧ Clean records

variable {r : Record} {records : List Record} {bs fill : Bytes} {reserved : UInt8}

theorem length_bytes (n : Nat) (h : n < 2 ^ 16) :
    (UInt8.ofNat (n / 256)).toNat <<< 8 ||| (UInt8.ofNat n).toNat = n := by
  have hhi : (UInt8.ofNat (n / 256)).toNat = n / 256 := by
    rw [UInt8.toNat_ofNat']
    omega
  have hlo : (UInt8.ofNat n).toNat = n % 256 := by
    rw [UInt8.toNat_ofNat']
  rw [hhi, hlo, ← Nat.shiftLeft_add_eq_or_of_lt (by omega), Nat.shiftLeft_eq]
  omega

theorem readAll_header (r : Record) :
    readAll .version r.header = some (.reserved r.type r.content.length r.padding, []) := by
  have htype : Reader.step .type r.type = some (.requestIdHi r.type, []) := by
    rw [Reader.step, if_pos r.type_mem]
  have hlength := length_bytes r.content.length r.content_lt
  have hpadding : (UInt8.ofNat r.padding).toNat = r.padding := by
    rw [UInt8.toNat_ofNat']
    exact Nat.mod_eq_of_lt r.padding_lt
  have hlo : Reader.step (.contentLengthLo r.type ((UInt8.ofNat (r.content.length / 256)).toNat <<< 8))
      (UInt8.ofNat r.content.length) = some (.paddingLength r.type r.content.length, []) := by
    rw [Reader.step, hlength]
  have hpad : Reader.step (.paddingLength r.type r.content.length) (UInt8.ofNat r.padding) =
      some (.reserved r.type r.content.length r.padding, []) := by
    rw [Reader.step, hpadding]
  exact feed_cons (t := .type) (o := []) rfl (feed_cons htype (feed_cons (t := .requestIdLo r.type) (o := []) rfl
    (feed_cons (t := .contentLengthHi r.type) (o := []) rfl (feed_cons rfl (feed_cons hlo (feed_one hpad))))))

theorem type_eq_stdout (hend : r.type ≠ endRequest) (herr : r.type ≠ stderr) : r.type = stdout := by
  rcases r.type_mem with h | h | h
  · exact h
  · exact absurd h herr
  · exact absurd h hend

-- Behind the header of a record without content its padding is read as a header.
theorem readAll_empty (hend : r.type ≠ endRequest) (hcontent : r.content = []) (reserved : UInt8)
    (hpad : r.type = stderr ∨ r.type = stdout) :
    readAll .version (r.header ++ [reserved]) = some (.version, []) := by
  have hread := readAll_header r
  rw [hcontent] at hread
  refine feed_append hread (feed_one ?_)
  rw [Reader.step]
  rcases hpad with herr | hout
  · rw [if_neg (by rw [herr]; decide), if_neg hend, List.length_nil, Reader.enter, if_pos rfl, if_pos herr]
  · rw [if_pos ⟨hout, rfl⟩]

theorem readAll_record (hend : r.type ≠ endRequest) (hclean : r.content = [] → r.padding = 0)
    (hfill : fill.length = r.padding) :
    readAll .version (r.header ++ reserved :: (r.content ++ fill)) =
      some (.version, if r.type = stdout then r.content else []) := by
  have htype : r.type = stderr ∨ r.type = stdout := by
    by_cases herr : r.type = stderr
    · exact Or.inl herr
    · exact Or.inr (type_eq_stdout hend herr)
  by_cases hcontent : r.content = []
  · have hnil : fill = [] := List.length_eq_zero_iff.mp (by rw [hfill, hclean hcontent])
    rw [hcontent, hnil, ite_self]
    exact readAll_empty hend hcontent reserved htype
  · have hlen : r.content.length ≠ 0 := by
      intro hzero
      exact hcontent (List.length_eq_zero_iff.mp hzero)
    have hstep : Reader.step (.reserved r.type r.content.length r.padding) reserved =
        some (.content r.type r.content.length r.padding, []) := by
      rw [Reader.step, if_neg fun h => hlen h.2, if_neg hend, Reader.enter, if_neg hlen]
    have hread := readAll_content r.type r.content r.content.length r.padding (Nat.le_refl _) hcontent
    rw [if_pos rfl] at hread
    have hpad := readAll_padding fill r.padding (by omega)
    rw [hfill, Nat.sub_self] at hpad
    have hall := feed_append (readAll_header r) (feed_cons hstep (feed_append hread hpad))
    rw [readAll, hall]
    rcases htype with herr | hout
    · rw [if_pos herr, if_neg (by rw [herr]; decide)]
      rfl
    · rw [if_neg (by rw [hout]; decide), if_pos hout]
      simp [Reader.pad]

theorem record_bytes (r : Record) (reserved : UInt8) (fill bs : Bytes) :
    r.header ++ reserved :: (r.content ++ (fill ++ bs)) = (r.header ++ reserved :: (r.content ++ fill)) ++ bs := by
  simp

theorem stdoutData_cons (hend : r.type ≠ endRequest) (records : List Record) :
    stdoutData (r :: records) = (if r.type = stdout then r.content else []) ++ stdoutData records := by
  rw [stdoutData, if_neg hend]
  split <;> simp

-- How a clean stream is read: to its end, or up to the last byte of an END_REQUEST's header
theorem readAll_clean (hclean : Clean records) (h : Encodes records bs) :
    readAll .version bs = some (.version, stdoutData records) ∨
      ∃ hd last tail length padding, bs = hd ++ last :: tail ∧
        readAll .version hd = some (.reserved endRequest length padding, stdoutData records) ∧
        (tail = [] ∨ tail = [1]) := by
  induction h with
  | nil => exact Or.inl rfl
  | cons r records bs reserved fill hfill h ih =>
      rw [Clean] at hclean
      by_cases hend : r.type = endRequest
      · rw [if_pos hend] at hclean
        obtain ⟨rfl, hpadding, hcontent⟩ := hclean
        have hnil : fill = [] := List.length_eq_zero_iff.mp (by omega)
        have hbs : bs = [] := by cases h; rfl
        refine Or.inr ⟨r.header, reserved, r.content ++ (fill ++ bs), r.content.length, r.padding, rfl, ?_, ?_⟩
        · rw [readAll_header, hend, stdoutData, if_pos hend]
        · rw [hnil, hbs, List.append_nil, List.append_nil]
          exact hcontent
      · rw [if_neg hend] at hclean
        obtain ⟨hempty, hclean⟩ := hclean
        have hrecord : readAll .version (r.header ++ reserved :: (r.content ++ fill)) =
            some (.version, if r.type = stdout then r.content else []) := readAll_record hend hempty hfill
        rw [record_bytes, stdoutData_cons hend]
        rcases ih hclean with hread | ⟨hd, last, tail, length, padding, heq, hread, htail⟩
        · exact Or.inl (feed_append hrecord hread)
        · refine Or.inr ⟨(r.header ++ reserved :: (r.content ++ fill)) ++ hd, last, tail, length, padding, ?_,
            feed_append hrecord hread, htail⟩
          rw [heq]
          simp

theorem ended_step (reader : Reader) (ch : UInt8) (reader' : Reader) (out : Bytes)
    (h : reader.step ch = some (reader', out)) (hended : reader = .ended) : reader' = .ended := by
  rw [hended, Reader.step, Option.some.injEq, Prod.mk.injEq] at h
  exact h.1.symm

theorem reopen_of_ne (reader : Reader) (h : ¬ reader = .ended) : reader.reopen = reader := by
  cases reader with
  | ended => exact absurd rfl h
  | _ => rfl

theorem feedPieces_open {reader reader' : Reader} {out : Bytes} {bufs : List Bytes}
    (h : readAll reader bufs.flatten = some (reader', out)) (hopen : reader' ≠ .ended) :
    feedPieces Reader.step Reader.reopen reader bufs = some (reader', out) :=
  feedPieces_of_open (c := fun reader => reader = .ended) ended_step reopen_of_ne h hopen

-- The pieces of a stream that ends with an END_REQUEST
theorem feedPieces_ended {reader : Reader} {hd tail out : Bytes} {last : UInt8} {length padding : Nat}
    (bufs : List Bytes) (hbufs : bufs.flatten = hd ++ last :: tail)
    (hread : readAll reader hd = some (.reserved endRequest length padding, out)) (htail : tail = [] ∨ tail = [1]) :
    ∃ reader', feedPieces Reader.step Reader.reopen reader bufs = some (reader', out) := by
  induction bufs generalizing reader hd out with
  | nil => simp at hbufs
  | cons buf bufs ih =>
      rw [List.flatten_cons, List.append_eq_append_iff] at hbufs
      rcases hbufs with ⟨hd', rfl, hrest⟩ | ⟨back, rfl, hover⟩
      · obtain ⟨mid, out₁, out₂, hbuf, hhd, rfl⟩ := feed_split hread
        have hopen : mid ≠ .ended := by
          intro hended
          have hlast := closed_feed (c := fun reader => reader = .ended) ended_step hhd hended
          cases hlast
        obtain ⟨reader', hpieces⟩ := ih hrest hhd
        refine ⟨reader', ?_⟩
        rw [feedPieces_cons hbuf, reopen_of_ne mid hopen, hpieces]
        rfl
      · cases back with
        | nil =>
            rw [List.nil_append] at hover
            obtain ⟨reader', hpieces⟩ := @ih (.reserved endRequest length padding) [] [] hover.symm rfl
            refine ⟨reader', ?_⟩
            rw [List.append_nil, feedPieces_cons hread]
            show (feedPieces Reader.step Reader.reopen (.reserved endRequest length padding) bufs).map _ = _
            rw [hpieces, Option.map_some, List.append_nil]
        | cons first back =>
            obtain ⟨rfl, htail'⟩ := List.cons.inj hover
            have hstep : Reader.step (.reserved endRequest length padding) last = some (.ended, []) := rfl
            have hbuf := feed_append hread (feed_cons hstep (readAll_ended back))
            rw [List.append_nil, List.append_nil] at hbuf
            have hmore : bufs.flatten = [] ∨ bufs.flatten = [1] := by
              rcases htail with rfl | rfl
              · exact Or.inl (List.append_eq_nil_iff.mp htail'.symm).2
              · rcases List.append_eq_singleton_iff.mp htail'.symm with ⟨-, hone⟩ | ⟨-, hnil⟩
                · exact Or.inr hone
                · exact Or.inl hnil
            rcases hmore with hmore | hmore
            · have hpieces : feedPieces Reader.step Reader.reopen .version bufs = some (.version, []) :=
                feedPieces_open (by rw [hmore]; rfl) (by decide)
              refine ⟨.version, ?_⟩
              rw [feedPieces_cons hbuf]
              show (feedPieces Reader.step Reader.reopen .version bufs).map _ = _
              rw [hpieces, Option.map_some, List.append_nil]
            · have hpieces : feedPieces Reader.step Reader.reopen .version bufs = some (.type, []) :=
                feedPieces_open (by rw [hmore]; rfl) (by decide)
              refine ⟨.type, ?_⟩
              rw [feedPieces_cons hbuf]
              show (feedPieces Reader.step Reader.reopen .version bufs).map _ = _
              rw [hpieces, Option.map_some, List.append_nil]

theorem feedPieces_clean (hclean : Clean records) (h : Encodes records bs) {bufs : List Bytes}
    (hbufs : bufs.flatten = bs) :
    ∃ reader, feedPieces Reader.step Reader.reopen .version bufs = some (reader, stdoutData records) := by
  rcases readAll_clean hclean h with hread | ⟨hd, last, tail, length, padding, heq, hread, htail⟩
  · rw [← hbufs] at hread
    exact ⟨.version, feedPieces_open hread (by decide)⟩
  · rw [heq] at hbufs
    exact feedPieces_ended bufs hbufs hread htail

theorem Encodes.length_le (h : Encodes records bs) : 8 * records.length ≤ bs.length := by
  induction h with
  | nil => simp
  | cons r records bs reserved fill hfill h ih =>
      simp only [Record.header, List.length_append, List.length_cons, List.length_nil]
      omega

theorem Encodes.eq_nil (h : Encodes records bs) (hbs : bs.length < 8) : records = [] ∧ bs = [] := by
  have hle := h.length_le
  have hrecords : records = [] := List.length_eq_zero_iff.mp (by omega)
  subst hrecords
  cases h
  exact ⟨rfl, rfl⟩

theorem exists_encodes (records : List Record) : ∃ bs, Encodes records bs := by
  induction records with
  | nil => exact ⟨[], .nil⟩
  | cons r records ih =>
      obtain ⟨bs, h⟩ := ih
      exact ⟨_, .cons r records bs 0 (List.replicate r.padding 0) List.length_replicate h⟩

-- Some byte makes a reader that starts in front of it, or in front of the byte before, fail.
theorem exists_refused (tail : Bytes) (hnil : tail ≠ []) (hone : tail ≠ [1]) :
    ∃ hd more, tail = hd ++ more ∧ readAll .version more = none := by
  rcases List.eq_nil_or_concat tail with rfl | ⟨hd, last, rfl⟩
  · exact absurd rfl hnil
  · rw [List.concat_eq_append] at hone ⊢
    by_cases hlast : last = 1
    · subst hlast
      rcases List.eq_nil_or_concat hd with rfl | ⟨hd, other, rfl⟩
      · exact absurd rfl hone
      · refine ⟨hd, [other, 1], by simp, ?_⟩
        by_cases hother : other = 1
        · rw [hother]
          rfl
        · exact readAll_step_none (by rw [Reader.step, if_neg hother]) _
    · exact ⟨hd, [last], rfl, readAll_step_none (by rw [Reader.step, if_neg hlast]) _⟩

theorem exists_error (hclean : ¬ Clean records) :
    ∃ bs bufs, Encodes records bs ∧ bufs.flatten = bs ∧ feedPieces Reader.step Reader.reopen .version bufs = none := by
  induction records with
  | nil => exact absurd trivial hclean
  | cons r records ih =>
      rw [Clean] at hclean
      by_cases hend : r.type = endRequest
      · rw [if_pos hend] at hclean
        obtain ⟨bs, h⟩ := exists_encodes records
        let fill := List.replicate r.padding (0 : UInt8)
        have hfill : fill.length = r.padding := List.length_replicate
        have hnil : r.content ++ (fill ++ bs) ≠ [] := by
          intro hnil
          obtain ⟨hcontent, hrest⟩ := List.append_eq_nil_iff.mp hnil
          obtain ⟨hpad, rfl⟩ := List.append_eq_nil_iff.mp hrest
          rw [hpad, List.length_nil] at hfill
          exact hclean ⟨(h.eq_nil (by decide)).1, hfill.symm, Or.inl hcontent⟩
        have hone : r.content ++ (fill ++ bs) ≠ [1] := by
          intro hone
          rcases List.append_eq_singleton_iff.mp hone with ⟨-, hrest⟩ | ⟨hcontent, hrest⟩
          · rcases List.append_eq_singleton_iff.mp hrest with ⟨-, rfl⟩ | ⟨hpad, -⟩
            · have hbs := (h.eq_nil (by decide)).2
              cases hbs
            · have hmem : (1 : UInt8) ∈ fill := by rw [hpad]; simp
              have hzero := List.eq_of_mem_replicate hmem
              revert hzero
              decide
          · obtain ⟨hpad, rfl⟩ := List.append_eq_nil_iff.mp hrest
            rw [hpad, List.length_nil] at hfill
            exact hclean ⟨(h.eq_nil (by decide)).1, hfill.symm, Or.inr hcontent⟩
        obtain ⟨hd, more, heq, hmore⟩ := exists_refused _ hnil hone
        refine ⟨_, [r.header ++ 0 :: hd, more], .cons r records bs 0 fill hfill h, ?_, ?_⟩
        · rw [heq]
          simp
        · have hheader := readAll_header r
          rw [hend] at hheader
          have hstep : Reader.step (.reserved endRequest r.content.length r.padding) 0 = some (.ended, []) := rfl
          rw [feedPieces_cons (feed_append hheader (feed_cons hstep (readAll_ended hd)))]
          show (feedPieces Reader.step Reader.reopen .version [more]).map _ = none
          rw [feedPieces_none hmore]
          rfl
      · rw [if_neg hend] at hclean
        by_cases hempty : r.content = [] → r.padding = 0
        · obtain ⟨bs, bufs, h, hbufs, hnone⟩ := ih fun hrest => hclean ⟨hempty, hrest⟩
          let fill := List.replicate r.padding (0 : UInt8)
          have hfill : fill.length = r.padding := List.length_replicate
          refine ⟨_, (r.header ++ 0 :: (r.content ++ fill)) :: bufs, .cons r records bs 0 fill hfill h, ?_, ?_⟩
          · rw [List.flatten_cons, hbufs, record_bytes]
          · rw [feedPieces_cons (readAll_record hend hempty hfill)]
            show (feedPieces Reader.step Reader.reopen .version bufs).map _ = none
            rw [hnone]
            rfl
        · rw [Classical.not_imp] at hempty
          obtain ⟨hcontent, hpadding⟩ := hempty
          obtain ⟨bs, h⟩ := exists_encodes records
          obtain ⟨n, hn⟩ := Nat.exists_eq_succ_of_ne_zero hpadding
          let fill := List.replicate r.padding (0 : UInt8)
          have hfill : fill.length = r.padding := List.length_replicate
          have hzeros : fill = 0 :: List.replicate n 0 := by
            show List.replicate r.padding 0 = _
            rw [hn, List.replicate_succ]
          have htype : r.type = stderr ∨ r.type = stdout := by
            by_cases herr : r.type = stderr
            · exact Or.inl herr
            · exact Or.inr (type_eq_stdout hend herr)
          have hbytes : r.header ++ 0 :: (r.content ++ (fill ++ bs)) =
              (r.header ++ [0]) ++ 0 :: (List.replicate n 0 ++ bs) := by
            rw [hcontent, hzeros]
            simp
          refine ⟨_, [r.header ++ 0 :: (r.content ++ (fill ++ bs))], .cons r records bs 0 fill hfill h, by simp, ?_⟩
          apply feedPieces_none
          rw [hbytes]
          exact feed_append_none (readAll_empty hend hcontent 0 htype) (readAll_step_none rfl _)

-- From the state in front of a record, whatever else the context holds, and with a pool that gives memory
theorem inputFilters_stdout_iff (f : Ctx) (p : Pipe) (records : List Record) (hstate : f.state = .version)
    (hp : p.answers = []) :
    (∀ bs bufs, Encodes records bs → bufs.flatten = bs → ∃ f' p', inputFilters f bufs p = some (.ok f' p') ∧
      p'.input.flatten = p.input.flatten ++ stdoutData records) ↔ Clean records := by
  have hreader : f.reader f.state = .version := by rw [hstate]; rfl
  constructor
  · intro hall
    by_contra hclean
    obtain ⟨bs, bufs, h, hbufs, hnone⟩ := exists_error hclean
    have hfollows := inputFilters_follows f bufs hp
    obtain ⟨f', p', hok, -⟩ := hall bs bufs h hbufs
    rw [hok, hreader, hnone] at hfollows
    obtain ⟨out, hread, -⟩ := hfollows
    cases hread
  · intro hclean bs bufs h hbufs
    obtain ⟨reader, hread⟩ := feedPieces_clean hclean h hbufs
    have hfollows := inputFilters_follows f bufs hp
    rw [hreader, hread] at hfollows
    rcases hfilters : inputFilters f bufs p with _ | _ | ⟨f', p'⟩
    · rw [hfilters] at hfollows
      exact hfollows.elim
    · rw [hfilters] at hfollows
      cases hfollows
    · rw [hfilters] at hfollows
      obtain ⟨out, hsome, hinput, -⟩ := hfollows
      rw [Option.some.injEq, Prod.mk.injEq] at hsome
      rw [← hsome.2] at hinput
      exact ⟨f', p', rfl, hinput⟩

def hello : Record := ⟨stdout, ngxString "hello", 3, by decide, by decide, by decide⟩

def warning : Record := ⟨stderr, ngxString "warning", 1, by decide, by decide, by decide⟩

def closing : Record := ⟨stdout, [], 0, by decide, by decide, by decide⟩

theorem inputFilters_stdout_iff_hello :
    Clean [warning, hello, hello, closing] ∧
      ∀ bs bufs, Encodes [warning, hello, hello, closing] bs → bufs.flatten = bs →
        ∃ f' p', inputFilters ⟨.version, 0, 0, 0⟩ bufs ⟨[], false, 0, 0, []⟩ = some (.ok f' p') ∧
          p'.input.flatten = stdoutData [warning, hello, hello, closing] := by
  have hclean : Clean [warning, hello, hello, closing] := by
    simp only [Clean]
    decide
  exact ⟨hclean, (inputFilters_stdout_iff ⟨.version, 0, 0, 0⟩ ⟨[], false, 0, 0, []⟩ _ rfl rfl).mpr hclean⟩

def paddedClosing : Record := ⟨stdout, [], 8, by decide, by decide, by decide⟩

-- The record that closes stdout, with eight bytes of padding: the first of them is taken for a version.
theorem padded_closing_refused :
    ¬ ∀ bs bufs, Encodes [paddedClosing] bs → bufs.flatten = bs →
      ∃ f' p', inputFilters ⟨.version, 0, 0, 0⟩ bufs ⟨[], false, 0, 0, []⟩ = some (.ok f' p') ∧
        p'.input.flatten = stdoutData [paddedClosing] := by
  intro h
  have hencodes : Encodes [paddedClosing] [1, 6, 0, 1, 0, 0, 8, 0, 0, 0, 0, 0, 0, 0, 0, 0] :=
    .cons paddedClosing [] [] 0 [0, 0, 0, 0, 0, 0, 0, 0] rfl .nil
  obtain ⟨f', p', hok, -⟩ := h _ [[1, 6, 0, 1, 0, 0, 8, 0, 0, 0, 0, 0, 0, 0, 0, 0]] hencodes rfl
  have herror : inputFilters ⟨.version, 0, 0, 0⟩ [[1, 6, 0, 1, 0, 0, 8, 0, 0, 0, 0, 0, 0, 0, 0, 0]]
      ⟨[], false, 0, 0, []⟩ = some .error := rfl
  rw [herror] at hok
  cases hok

end Nginx.Fastcgi
