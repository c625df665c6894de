import Nginx.Http.Memcached

namespace Nginx.Memcached

-- The seven bytes behind the value
def trailer : Bytes := ngxString "\r\nEND\r\n"

theorem trailer_length : trailer.length = 7 := by decide

section

variable {data text : Bytes}

-- strncmp of all of the data with a text and its NUL
theorem strncmp_within (h : data <+: text) (h0 : 0 ∉ text) :
    strncmp data (text ++ [0]) data.length = some (true, data.length) := by
  induction data generalizing text with
  | nil => rfl
  | cons c data ih =>
      cases text with
      | nil => simp at h
      | cons d text =>
          obtain ⟨rfl, hrest⟩ := List.cons_prefix_cons.mp h
          rw [List.mem_cons, not_or] at h0
          have hne : c ≠ 0 := fun heq => h0.1 heq.symm
          rw [List.cons_append, List.length_cons, strncmp, if_neg (by simp), if_neg hne, ih hrest h0.2]
          rfl

theorem strncmp_beyond (h : text <+: data) (h0 : 0 ∉ text) (hlt : text.length < data.length) :
    ∃ same, strncmp data (text ++ [0]) data.length = some (same, text.length + 1) := by
  induction text generalizing data with
  | nil =>
      cases data with
      | nil => simp at hlt
      | cons c data =>
          by_cases hc : c = 0
          · exact ⟨true, by simp [strncmp, hc]⟩
          · exact ⟨false, by simp [strncmp, hc]⟩
  | cons d text ih =>
      cases data with
      | nil => simp at hlt
      | cons c data =>
          obtain ⟨rfl, hrest⟩ := List.cons_prefix_cons.mp h
          rw [List.mem_cons, not_or] at h0
          have hne : d ≠ 0 := fun heq => h0.1 heq.symm
          simp only [List.length_cons, Nat.add_lt_add_iff_right] at hlt
          obtain ⟨same, hsame⟩ := ih hrest h0.2 hlt
          refine ⟨same, ?_⟩
          rw [List.cons_append, List.length_cons, strncmp, if_neg (by simp), if_neg hne, hsame]
          rfl

theorem strncmp_differs (h : ¬data <+: text) (h' : ¬text <+: data) (h0 : 0 ∉ text) :
    ∃ seen, seen ≤ text.length ∧ strncmp data (text ++ [0]) data.length = some (false, seen) := by
  induction data generalizing text with
  | nil => exact absurd (List.nil_prefix) h
  | cons c data ih =>
      cases text with
      | nil => exact absurd (List.nil_prefix) h'
      | cons d text =>
          rw [List.mem_cons, not_or] at h0
          by_cases hc : c = d
          · subst hc
            have hne : c ≠ 0 := fun heq => h0.1 heq.symm
            obtain ⟨seen, hle, hseen⟩ := ih (fun hp => h (List.cons_prefix_cons.mpr ⟨rfl, hp⟩))
              (fun hp => h' (List.cons_prefix_cons.mpr ⟨rfl, hp⟩)) h0.2
            refine ⟨seen + 1, by rw [List.length_cons]; omega, ?_⟩
            rw [List.cons_append, List.length_cons, strncmp, if_neg (by simp), if_neg hne, hseen]
            rfl
          · refine ⟨1, by rw [List.length_cons]; omega, ?_⟩
            rw [List.cons_append, List.length_cons, strncmp, if_pos hc]

-- However it ends, it does not look behind the NUL.
theorem strncmp_some (data text : Bytes) (h0 : 0 ∉ text) :
    ∃ same seen, strncmp data (text ++ [0]) data.length = some (same, seen) ∧ (data.length ≤ text.length → seen ≤ text.length) := by
  by_cases hwithin : data <+: text
  · exact ⟨true, data.length, strncmp_within hwithin h0, fun h => h⟩
  · by_cases hbeyond : text <+: data
    · have hlt : text.length < data.length := by
        have hle := hbeyond.length_le
        by_contra hge
        have heq : text = data := hbeyond.eq_of_length (by omega)
        exact hwithin (heq ▸ List.prefix_rfl)
      obtain ⟨same, hsame⟩ := strncmp_beyond hbeyond h0 hlt
      exact ⟨same, _, hsame, fun h => by omega⟩
    · obtain ⟨seen, hle, hseen⟩ := strncmp_differs hwithin hbeyond h0
      exact ⟨false, seen, hseen, fun _ => hle⟩

end

-- A run of the filter on reads after some bytes have been received: the bufs have the first n bytes, the comparisons
-- stay in the trailer, and no subtraction wraps.
def Clean (n : Nat) : State → Bytes → List Bytes → Prop
  | _, _, [] => True
  | s, got, read :: reads => ∃ e, filter s read = some e ∧ e.seen ≤ memcachedEndLen ∧ e.wrapped = false ∧
      e.state.out = (got ++ read).take n ∧ Clean n e.state (got ++ read) reads

-- How the reads may be cut: the one that ends the value has at most the trailer behind it; one that begins behind the
-- value goes on with the trailer, or it differs from it and is the last one.
def Bounded (n : Nat) : Bytes → List Bytes → Prop
  | _, [] => True
  | got, read :: reads =>
      if got.length < n then (got ++ read).length ≤ n + trailer.length ∧ Bounded n (got ++ read) reads
      else if read <+: trailer.drop (got.length - n) then Bounded n (got ++ read) reads
      else ¬trailer.drop (got.length - n) <+: read ∧ ∀ later ∈ reads, later = []

section

variable {n : Nat} {got : Bytes} {s : State}

theorem memcachedEnd_drop (k : Nat) (h : k ≤ 7) : memcachedEnd.drop k = trailer.drop k ++ [0] := by
  have hend : memcachedEnd = trailer ++ [0] := rfl
  rw [hend, List.drop_append_of_le_length (by rw [trailer_length]; exact h)]

theorem trailer_drop_nul (k : Nat) : 0 ∉ trailer.drop k := by
  intro hmem
  have hin := List.mem_of_mem_drop hmem
  revert hin
  decide

-- A call behind the value
theorem filter_trailer (k : Nat) (hk : k ≤ 7) (hlength : s.length = 7 - k) (hrest : s.rest = 7 - k) (read : Bytes) :
    filter s read =
      (strncmp read (trailer.drop k ++ [0]) read.length).map fun (same, seen) =>
        if !same then ⟨{ s with length := 0, rest := 0 }, k + seen, false⟩
        else
          ⟨{ s with length := toSize (s.length - read.length), rest := toSize (s.rest - read.length) },
            k + seen, decide (s.rest < read.length)⟩ := by
  have hplace : memcachedEndLen - s.rest = k := by
    rw [hrest]
    unfold memcachedEndLen
    omega
  have hle : ¬memcachedEndLen < s.rest := by
    rw [hrest]
    unfold memcachedEndLen
    omega
  rw [filter, if_pos (by rw [hlength, hrest]), if_neg hle, hplace, memcachedEnd_drop k hk]

-- Nothing can follow once length and rest are zero.
theorem clean_zero (hlength : s.length = 0) (hrest : s.rest = 0) (hout : s.out = got.take n) (hgot : n ≤ got.length)
    (reads : List Bytes) : Clean n s got reads ↔ ∀ read ∈ reads, read = [] := by
  induction reads generalizing s got with
  | nil => simp [Clean]
  | cons read reads ih =>
      have hfilter := filter_trailer 7 (by omega) (by omega) (by omega) read
      have hdrop : trailer.drop 7 = [] := rfl
      rw [hdrop] at hfilter
      cases read with
      | nil =>
          have hstate : filter s [] = some ⟨s, 7, false⟩ := by
            rw [hfilter]
            cases s
            cases hlength
            cases hrest
            rfl
          rw [Clean, hstate]
          constructor
          · rintro ⟨e, he, -, -, -, hclean⟩ read hread
            cases he
            rcases List.mem_cons.mp hread with rfl | hread
            · rfl
            · exact (ih hlength hrest (by rw [hout, List.append_nil]) (by simpa using hgot)).mp hclean read hread
          · intro h
            refine ⟨_, rfl, Nat.le_refl 7, rfl, by rw [hout, List.append_nil], ?_⟩
            exact (ih hlength hrest (by rw [hout, List.append_nil]) (by simpa using hgot)).mpr
              (fun r hr => h r (List.mem_cons_of_mem _ hr))
      | cons c read =>
          obtain ⟨same, hsame⟩ := strncmp_beyond (List.nil_prefix (l := c :: read)) (by simp) (by simp)
          rw [hsame] at hfilter
          constructor
          · rintro ⟨e, he, hseen, -⟩
            rw [hfilter, Option.map_some, Option.some.injEq] at he
            have hfar : e.seen = 8 := by
              rw [← he]
              cases same <;> rfl
            rw [hfar] at hseen
            exact absurd hseen (by decide)
          · intro h
            cases h (c :: read) List.mem_cons_self

-- u->length and ctx->rest while the reads are cut as they should be
structure Received (n : Nat) (got : Bytes) (s : State) : Prop where
  le : got.length ≤ n + 7
  out : s.out = got.take n
  before : got.length < n → s.length = n - got.length + 7 ∧ s.rest = 7
  behind : n ≤ got.length → s.length = n + 7 - got.length ∧ s.rest = n + 7 - got.length

-- A read that begins in the value
theorem filter_value (h : Received n got s) (hn : n < 2 ^ 63) (hlt : got.length < n) (read : Bytes) :
    ∃ e, filter s read = some e ∧
      ((got ++ read).length ≤ n + 7 → e.seen ≤ 7 ∧ e.wrapped = false ∧ Received n (got ++ read) e.state) ∧
      (n + 7 < (got ++ read).length → e.wrapped = true) := by
  obtain ⟨hlength, hrest⟩ := h.before hlt
  have hout := h.out
  rw [List.take_of_length_le (by omega)] at hout
  have hvalue : toSize (s.length - memcachedEndLen) = n - got.length := by
    have hcast := toSize_of_nonneg (s.length - memcachedEndLen : Int) (by unfold memcachedEndLen; omega)
      (by unfold memcachedEndLen; omega)
    unfold memcachedEndLen at hcast ⊢
    omega
  have hsigned : toInt64 (n - got.length : Nat) = (n - got.length : Nat) :=
    toInt64_of_range _ (by omega) (by omega)
  rw [filter, if_neg (by omega)]
  dsimp only
  rw [hvalue, hsigned, List.length_append]
  split
  · rename_i hfits
    have hsize : toSize (s.length - read.length) = s.length - read.length := by
      have hcast := toSize_of_nonneg (s.length - read.length : Int) (by omega) (by omega)
      omega
    refine ⟨_, rfl, fun hle => ⟨Nat.zero_le 7, ?_, ?_⟩, fun hgt => ?_⟩
    · exact decide_eq_false (by omega)
    · refine ⟨by rw [List.length_append]; omega, ?_, ?_, ?_⟩
      · dsimp only
        rw [hout, List.take_of_length_le]
        rw [List.length_append]
        omega
      · intro hmore
        rw [List.length_append] at hmore ⊢
        dsimp only
        omega
      · intro hdone
        rw [List.length_append] at hdone ⊢
        dsimp only
        omega
    · omega
  · rename_i hover
    have hlen : (read.drop (n - got.length)).length = read.length - (n - got.length) := List.length_drop
    have hstrncmp := strncmp_some (read.drop (n - got.length)) trailer (by decide)
    obtain ⟨same, seen, hsame, hseen⟩ := hstrncmp
    have hend : memcachedEnd = trailer ++ [0] := rfl
    rw [hend, hsame]
    refine ⟨_, rfl, fun hle => ⟨?_, ?_, ?_⟩, fun hgt => ?_⟩
    · exact hseen (by rw [trailer_length]; omega)
    · exact decide_eq_false (by omega)
    · have hsize : toSize (s.rest - (read.drop (n - got.length)).length) = n + 7 - (got.length + read.length) := by
        have hcast := toSize_of_nonneg (s.rest - (read.drop (n - got.length)).length : Int) (by omega) (by omega)
        omega
      refine ⟨by rw [List.length_append]; omega, ?_, ?_, ?_⟩
      · have htake : got.take n = got := List.take_of_length_le (by omega)
        dsimp only
        rw [hout, List.take_append, htake]
      · intro hmore
        rw [List.length_append] at hmore
        omega
      · intro hdone
        dsimp only
        rw [hsize, List.length_append]
        exact ⟨rfl, rfl⟩
    · exact decide_eq_true (by omega)

theorem clean_iff (hn : n < 2 ^ 63) (h : Received n got s) (reads : List Bytes) :
    Clean n s got reads ↔ Bounded n got reads := by
  induction reads generalizing s got with
  | nil => simp [Clean, Bounded]
  | cons read reads ih =>
      rw [Clean, Bounded]
      by_cases hlt : got.length < n
      · obtain ⟨e, hfilter, hgood, hbad⟩ := filter_value h hn hlt read
        rw [hfilter, if_pos hlt, trailer_length]
        constructor
        · rintro ⟨e', he, -, hwrapped, -, hclean⟩
          cases he
          have hle : (got ++ read).length ≤ n + 7 := by
            by_contra hgt
            rw [hbad (by omega)] at hwrapped
            cases hwrapped
          exact ⟨hle, (ih (hgood hle).2.2).mp hclean⟩
        · rintro ⟨hle, hbounded⟩
          obtain ⟨hseen, hwrapped, hreceived⟩ := hgood hle
          exact ⟨e, rfl, hseen, hwrapped, hreceived.out, (ih hreceived).mpr hbounded⟩
      · obtain ⟨hlength, hrest⟩ := h.behind (by omega)
        have hle := h.le
        have hk : got.length - n ≤ 7 := by omega
        have hfilter := filter_trailer (got.length - n) hk (s := s) (by omega) (by omega) read
        have htext : (trailer.drop (got.length - n)).length = 7 - (got.length - n) := by
          rw [List.length_drop, trailer_length]
        have hout : s.out = (got ++ read).take n := by
          rw [h.out, List.take_append_of_le_length (by omega)]
        rw [if_neg hlt]
        by_cases hwithin : read <+: trailer.drop (got.length - n)
        · have hshort := hwithin.length_le
          have hsize : toSize (s.length - read.length) = s.length - read.length := by
            have hcast := toSize_of_nonneg (s.length - read.length : Int) (by omega) (by omega)
            omega
          have hsize' : toSize (s.rest - read.length) = s.rest - read.length := by
            have hcast := toSize_of_nonneg (s.rest - read.length : Int) (by omega) (by omega)
            omega
          have hreceived : Received n (got ++ read)
              { s with length := toSize (s.length - read.length), rest := toSize (s.rest - read.length) } := by
            refine ⟨by rw [List.length_append]; omega, hout, ?_, ?_⟩
            · intro hmore
              rw [List.length_append] at hmore
              omega
            · intro hdone
              rw [List.length_append]
              dsimp only
              omega
          rw [strncmp_within hwithin (trailer_drop_nul _)] at hfilter
          rw [hfilter, if_pos hwithin]
          constructor
          · rintro ⟨e, he, -, -, -, hclean⟩
            cases he
            exact (ih hreceived).mp hclean
          · intro hbounded
            refine ⟨_, rfl, ?_, decide_eq_false (by omega), hout, (ih hreceived).mpr hbounded⟩
            show got.length - n + read.length ≤ 7
            omega
        · rw [if_neg hwithin]
          by_cases hbeyond : trailer.drop (got.length - n) <+: read
          · have hlong : (trailer.drop (got.length - n)).length < read.length := by
              by_contra hge
              have hsame := hbeyond.eq_of_length (by have := hbeyond.length_le; omega)
              exact hwithin (hsame ▸ List.prefix_rfl)
            obtain ⟨same, hsame⟩ := strncmp_beyond hbeyond (trailer_drop_nul _) hlong
            rw [hsame] at hfilter
            constructor
            · rintro ⟨e, he, hseen, -⟩
              rw [hfilter, Option.map_some, Option.some.injEq] at he
              have hfar : e.seen = 8 := by
                rw [← he]
                cases same
                · show got.length - n + _ = 8
                  omega
                · show got.length - n + _ = 8
                  omega
              rw [hfar] at hseen
              exact absurd hseen (by decide)
            · rintro ⟨hnot, -⟩
              exact absurd hbeyond hnot
          · obtain ⟨seen, hseenLe, hseen⟩ := strncmp_differs hwithin hbeyond (trailer_drop_nul _)
            rw [hseen] at hfilter
            have hmore : n ≤ (got ++ read).length := by
              rw [List.length_append]
              omega
            have hzero := clean_zero (s := { s with length := 0, rest := 0 }) rfl rfl hout hmore reads
            rw [hfilter]
            constructor
            · rintro ⟨e, he, -, -, -, hclean⟩
              cases he
              exact ⟨hbeyond, hzero.mp hclean⟩
            · rintro ⟨-, hlast⟩
              refine ⟨_, rfl, ?_, rfl, hout, hzero.mpr hlast⟩
              show got.length - n + seen ≤ 7
              omega

end

end Nginx.Memcached
