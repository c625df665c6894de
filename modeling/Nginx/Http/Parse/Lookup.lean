import Nginx.Http.Parse.RequestLine

namespace Nginx.HttpParse

-- A result with the positions that are read through a pointer into the text and through one into the name.
structure Traced (α : Type) where
  value : α
  text : List Nat
  name : List Nat
deriving DecidableEq

def Traced.after {α : Type} (t : Traced α) (text name : List Nat) : Traced α :=
  ⟨t.value, text ++ t.text, name ++ t.name⟩

variable (mem nameMem : Nat → UInt8)

-- ngx_strncasecmp, true when it returns 0
def compareFrom : Nat → Nat → Nat → Traced Bool
  | 0, _, _ => ⟨true, [], []⟩
  | n + 1, s1, s2 =>
    if tolower (mem s1) = tolower (nameMem s2) then
      if tolower (mem s1) ≠ 0 then (compareFrom n (s1 + 1) (s2 + 1)).after [s1] [s2]
      else ⟨true, [s1], [s2]⟩
    else ⟨false, [s1], [s2]⟩

-- The loops of ngx_strlcasestrn for the positions below last: none is NULL.
def searchFrom (n : Nat) (c2 : UInt8) : Nat → Nat → Traced (Option Nat)
  | 0, _ => ⟨none, [], []⟩
  | fuel + 1, s1 =>
    if tolower (mem s1) ≠ c2 then (searchFrom n c2 fuel (s1 + 1)).after [s1] []
    else
      let compared := compareFrom mem nameMem n (s1 + 1) 1
      if compared.value then ⟨some s1, s1 :: compared.text, compared.name⟩
      else (searchFrom n c2 fuel (s1 + 1)).after (s1 :: compared.text) compared.name

-- ngx_strlcasestrn: last -= n is about pointers, for which the top half of the values of n goes upwards.
def strlcasestrn (s1 : Nat) (last : Int) (n : Nat) : Traced (Option Nat) :=
  (searchFrom mem nameMem n (tolower (nameMem 0)) (last - toInt64 n - s1).toNat s1).after [] [0]

-- ngx_strlchr from p on for fuel bytes
def strlchr (c : UInt8) : Nat → Nat → Traced (Option Nat)
  | 0, _ => ⟨none, [], []⟩
  | fuel + 1, p => if mem p = c then ⟨some p, [p], []⟩ else (strlchr c fuel (p + 1)).after [p] []

-- The test behind the search, with the positions it reads
def argEnds (p len : Nat) : Bool × List Nat :=
  let first := if p = 0 then [] else [p - 1]
  if p = 0 ∨ mem (p - 1) = 38 then (mem (p + len) = 61, first ++ [p + len]) else (false, first)

-- The value at data is a position with a length.
def argFrom (size len : Nat) : Nat → Nat → Traced (Option (Nat × Nat))
  | 0, _ => ⟨none, [], []⟩
  | fuel + 1, p =>
    if size ≤ p then ⟨none, [], []⟩
    else
      let searched := strlcasestrn mem nameMem p (size - 1) (toSize (len - 1))
      match searched.value with
      | none => ⟨none, searched.text, searched.name⟩
      | some p =>
        let (ends, reads) := argEnds mem p len
        if ends then
          let chr := strlchr mem 38 (size - p) p
          ⟨some (p + len + 1, toSize ((chr.value.getD size : Int) - (p + len + 1))),
            searched.text ++ reads ++ chr.text, searched.name⟩
        else (argFrom size len fuel (p + 1)).after (searched.text ++ reads) searched.name

-- ngx_http_arg on the size bytes of r->args, whose positions count from r->args.data: none is NGX_DECLINED.
def httpArg (size len : Nat) : Traced (Option (Nat × Nat)) :=
  if size = 0 then ⟨none, [], []⟩ else argFrom mem nameMem size len size 0

-- The item of a query string that begins at p
def ItemAt (args : Bytes) (p : Nat) (item : Bytes) : Prop :=
  p ≤ args.length ∧ (p = 0 ∨ args[p - 1]? = some 38) ∧ item = (args.drop p).takeWhile (· ≠ 38)

-- Its part before the first '=' is the name.
def Names (name item : Bytes) : Prop := 61 ∈ item ∧ (item.takeWhile (· ≠ 61)).map tolower = name.map tolower

-- The value of the first item with the name, found inside of the query string
structure ArgRight (args name : Bytes) (out : Traced (Option (Nat × Nat))) : Prop where
  inText : ∀ i ∈ out.text, i < args.length
  inName : ∀ i ∈ out.name, i < name.length
  found : ∀ v n, out.value = some (v, n) → ∃ p item, ItemAt args p item ∧ Names name item ∧
    (∀ q item', q < p → ItemAt args q item' → ¬Names name item') ∧ v = p + name.length + 1 ∧ v + n = p + item.length
  declined : out.value = none → ∀ p item, ItemAt args p item → ¬Names name item

section Search

variable {mem nameMem : Nat → UInt8} {n fuel s1 s2 : Nat} {c2 : UInt8}

variable (mem nameMem) in
theorem compareFrom_reads (n s1 s2 : Nat) :
    (∀ i ∈ (compareFrom mem nameMem n s1 s2).text, s1 ≤ i ∧ i < s1 + n) ∧
      ∀ i ∈ (compareFrom mem nameMem n s1 s2).name, s2 ≤ i ∧ i < s2 + n := by
  induction n generalizing s1 s2 with
  | zero => exact ⟨List.forall_mem_nil _, List.forall_mem_nil _⟩
  | succ n ih =>
      have htext : ∀ i ∈ [s1], s1 ≤ i ∧ i < s1 + (n + 1) := List.forall_mem_singleton.mpr (by omega)
      have hname : ∀ i ∈ [s2], s2 ≤ i ∧ i < s2 + (n + 1) := List.forall_mem_singleton.mpr (by omega)
      obtain ⟨htexts, hnames⟩ := ih (s1 + 1) (s2 + 1)
      rw [compareFrom]
      split
      · split
        · refine ⟨List.forall_mem_append.mpr ⟨htext, fun i hi => ?_⟩, List.forall_mem_append.mpr ⟨hname, fun i hi => ?_⟩⟩
          · have := htexts i hi
            omega
          · have := hnames i hi
            omega
        · exact ⟨htext, hname⟩
      · exact ⟨htext, hname⟩

theorem compareFrom_of_equal (h : ∀ i < n, tolower (mem (s1 + i)) = tolower (nameMem (s2 + i))) :
    (compareFrom mem nameMem n s1 s2).value = true := by
  induction n generalizing s1 s2 with
  | zero => rfl
  | succ n ih =>
      have hhere : tolower (mem s1) = tolower (nameMem s2) := h 0 (Nat.succ_pos n)
      rw [compareFrom, if_pos hhere]
      split
      · apply ih
        intro i hi
        have hnext := h (i + 1) (Nat.succ_lt_succ hi)
        rwa [Nat.add_right_comm s1, Nat.add_right_comm s2]
      · rfl

-- Without a NUL byte in the name the comparison goes to its end.
theorem equal_of_compareFrom (hnul : ∀ i < n, tolower (nameMem (s2 + i)) ≠ 0)
    (h : (compareFrom mem nameMem n s1 s2).value = true) :
    ∀ i < n, tolower (mem (s1 + i)) = tolower (nameMem (s2 + i)) := by
  induction n generalizing s1 s2 with
  | zero => exact fun i hi => absurd hi (Nat.not_lt_zero i)
  | succ n ih =>
      rw [compareFrom] at h
      split at h
      · rename_i heq
        rw [if_pos (heq ▸ hnul 0 (Nat.succ_pos n))] at h
        have hrest := ih (fun i hi => by
          have hnext := hnul (i + 1) (Nat.succ_lt_succ hi)
          rwa [Nat.add_right_comm s2]) h
        intro i hi
        cases i with
        | zero => exact heq
        | succ i =>
            have hnext := hrest i (Nat.lt_of_succ_lt_succ hi)
            rwa [Nat.add_right_comm s1, Nat.add_right_comm s2] at hnext
      · exact absurd h Bool.false_ne_true

-- The name stands at q, as the search compares it.
def MatchesAt (mem nameMem : Nat → UInt8) (n q : Nat) : Prop :=
  tolower (mem q) = tolower (nameMem 0) ∧ (compareFrom mem nameMem n (q + 1) 1).value = true

-- The first of the positions from s1 on that are below stop
def FirstFrom (P : Nat → Prop) (s1 stop : Nat) (found : Option Nat) : Prop :=
  match found with
  | some q => s1 ≤ q ∧ q < stop ∧ P q ∧ ∀ i, s1 ≤ i → i < q → ¬P i
  | none => ∀ i, s1 ≤ i → i < stop → ¬P i

theorem FirstFrom.skip {P : Nat → Prop} {start stop : Nat} {found : Option Nat} (h : FirstFrom P start stop found)
    (hle : s1 ≤ start) (hnot : ∀ i, s1 ≤ i → i < start → ¬P i) : FirstFrom P s1 stop found := by
  cases found with
  | none =>
      intro i hi hlt
      by_cases hstart : start ≤ i
      · exact h i hstart hlt
      · exact hnot i hi (by omega)
  | some q =>
      obtain ⟨hleq, hlt, hq, hfirst⟩ := h
      refine ⟨Nat.le_trans hle hleq, hlt, hq, fun i hi hiq => ?_⟩
      by_cases hstart : start ≤ i
      · exact hfirst i hstart hiq
      · exact hnot i hi (by omega)

theorem FirstFrom.next {P : Nat → Prop} {stop : Nat} {found : Option Nat} (h : FirstFrom P (s1 + 1) stop found)
    (hnot : ¬P s1) : FirstFrom P s1 stop found :=
  h.skip (Nat.le_succ s1) fun i hi hlt => Nat.le_antisymm (Nat.le_of_lt_succ hlt) hi ▸ hnot

variable (mem nameMem n) in
theorem searchFrom_first (fuel s1 : Nat) :
    FirstFrom (MatchesAt mem nameMem n) s1 (s1 + fuel) (searchFrom mem nameMem n (tolower (nameMem 0)) fuel s1).value := by
  induction fuel generalizing s1 with
  | zero => exact fun i hi hlt => absurd hlt (Nat.not_lt.mpr hi)
  | succ fuel ih =>
      have hrest := ih (s1 + 1)
      rw [Nat.add_right_comm, Nat.add_assoc] at hrest
      rw [searchFrom]
      split
      · rename_i hne
        exact hrest.next fun hmatch => hne hmatch.1
      · rename_i heq
        dsimp only
        split
        · rename_i hcompare
          have hmatch : MatchesAt mem nameMem n s1 := ⟨by simpa using heq, hcompare⟩
          exact ⟨Nat.le_refl s1, by omega, hmatch, fun i hi hlt => absurd hlt (Nat.not_lt.mpr hi)⟩
        · rename_i hcompare
          exact hrest.next fun hmatch => hcompare hmatch.2

variable (mem nameMem n c2) in
theorem searchFrom_reads (fuel s1 : Nat) :
    (∀ i ∈ (searchFrom mem nameMem n c2 fuel s1).text, 0 < fuel ∧ i < s1 + fuel + n) ∧
      ∀ i ∈ (searchFrom mem nameMem n c2 fuel s1).name, i ≤ n := by
  induction fuel generalizing s1 with
  | zero => exact ⟨List.forall_mem_nil _, List.forall_mem_nil _⟩
  | succ fuel ih =>
      obtain ⟨htexts, hnames⟩ := ih (s1 + 1)
      obtain ⟨htext, hname⟩ := compareFrom_reads mem nameMem n (s1 + 1) 1
      have hrest : ∀ i ∈ (searchFrom mem nameMem n c2 fuel (s1 + 1)).text, 0 < fuel + 1 ∧ i < s1 + (fuel + 1) + n := by
        intro i hi
        have := htexts i hi
        omega
      have hhere : ∀ i ∈ s1 :: (compareFrom mem nameMem n (s1 + 1) 1).text,
          0 < fuel + 1 ∧ i < s1 + (fuel + 1) + n := by
        refine List.forall_mem_cons.mpr ⟨by omega, fun i hi => ?_⟩
        have := htext i hi
        omega
      have hhereName : ∀ i ∈ (compareFrom mem nameMem n (s1 + 1) 1).name, i ≤ n := by
        intro i hi
        have := hname i hi
        omega
      rw [searchFrom]
      split
      · exact ⟨List.forall_mem_append.mpr ⟨List.forall_mem_singleton.mpr (by omega), hrest⟩, hnames⟩
      · dsimp only
        split
        · exact ⟨hhere, hhereName⟩
        · exact ⟨List.forall_mem_append.mpr ⟨hhere, hrest⟩, List.forall_mem_append.mpr ⟨hhereName, hnames⟩⟩

variable (mem) in
theorem strlchr_first (c : UInt8) (fuel p : Nat) :
    FirstFrom (fun i => mem i = c) p (p + fuel) (strlchr mem c fuel p).value ∧
      ∀ i ∈ (strlchr mem c fuel p).text, i < p + fuel := by
  induction fuel generalizing p with
  | zero => exact ⟨fun i hi hlt => absurd hlt (Nat.not_lt.mpr hi), List.forall_mem_nil _⟩
  | succ fuel ih =>
      obtain ⟨hfirst, hreads⟩ := ih (p + 1)
      rw [Nat.add_right_comm, Nat.add_assoc] at hfirst hreads
      have hhere : ∀ i ∈ [p], i < p + (fuel + 1) := List.forall_mem_singleton.mpr (by omega)
      rw [strlchr]
      split
      · rename_i hc
        exact ⟨⟨Nat.le_refl p, by omega, hc, fun i hi hlt => absurd hlt (Nat.not_lt.mpr hi)⟩, hhere⟩
      · rename_i hc
        exact ⟨hfirst.next hc, List.forall_mem_append.mpr ⟨hhere, hreads⟩⟩

end Search

section Args

variable {mem nameMem : Nat → UInt8} {size len fuel p q : Nat}

-- The name and a '=' stand at the begin of an item, as ngx_http_arg finds them.
def ArgHit (mem nameMem : Nat → UInt8) (size len q : Nat) : Prop :=
  (q = 0 ∨ mem (q - 1) = 38) ∧ q + len < size ∧ MatchesAt mem nameMem (len - 1) q ∧ mem (q + len) = 61

theorem toSize_pred (hpos : 0 < len) (hlen : len < 2 ^ 63) : toSize ((len : Int) - 1) = len - 1 ∧
    toInt64 (len - 1 : Nat) = len - 1 := by
  constructor
  · unfold toSize
    omega
  · rw [toInt64_of_range _ (by omega) (by omega)]
    omega

variable (mem nameMem size p) in
theorem strlcasestrn_first (hpos : 0 < len) (hlen : len < 2 ^ 63) :
    let searched := strlcasestrn mem nameMem p (size - 1) (toSize (len - 1))
    FirstFrom (fun i => i + len < size ∧ MatchesAt mem nameMem (len - 1) i) p size searched.value ∧
      (∀ i ∈ searched.text, i < size) ∧ ∀ i ∈ searched.name, i < len := by
  obtain ⟨hpred, hsigned⟩ := toSize_pred hpos hlen
  have hfuel : (((size : Int) - 1) - toInt64 (len - 1 : Nat) - p).toNat = size - len - p := by
    rw [hsigned]
    omega
  dsimp only
  rw [strlcasestrn, hpred, hfuel]
  have hfirst := searchFrom_first mem nameMem (len - 1) (size - len - p) p
  obtain ⟨htext, hname⟩ := searchFrom_reads mem nameMem (len - 1) (tolower (nameMem 0)) (size - len - p) p
  generalize searchFrom mem nameMem (len - 1) (tolower (nameMem 0)) (size - len - p) p = out at hfirst htext hname ⊢
  refine ⟨?_, ?_, ?_⟩
  · show FirstFrom _ p size out.value
    cases hvalue : out.value with
    | none =>
        rw [hvalue] at hfirst
        rintro i hi - ⟨hlt, hmatch⟩
        exact hfirst i hi (by omega) hmatch
    | some q =>
        rw [hvalue] at hfirst
        obtain ⟨hle, hlt, hmatch, hnone⟩ := hfirst
        exact ⟨hle, by omega, ⟨by omega, hmatch⟩, fun i hi hiq hbefore => hnone i hi hiq hbefore.2⟩
  · intro i hi
    have := htext i hi
    omega
  · refine List.forall_mem_cons.mpr ⟨hpos, fun i hi => ?_⟩
    have := hname i hi
    omega

-- What ngx_http_arg is about to return for the item that begins at q
def argValue (mem : Nat → UInt8) (size len q : Nat) : Nat × Nat :=
  (q + len + 1, toSize (((strlchr mem 38 (size - q) q).value.getD size : Int) - (q + len + 1)))

variable (mem) in
theorem argEnds_spec (hq : q + len < size) :
    ((argEnds mem q len).1 = true ↔ (q = 0 ∨ mem (q - 1) = 38) ∧ mem (q + len) = 61) ∧
      ∀ i ∈ (argEnds mem q len).2, i < size := by
  unfold argEnds
  have hfirst : ∀ i ∈ (if q = 0 then [] else [q - 1]), i < size := by
    split
    · exact List.forall_mem_nil _
    · exact List.forall_mem_singleton.mpr (by omega)
  dsimp only
  split
  · rename_i hbegin
    refine ⟨by simp [hbegin], List.forall_mem_append.mpr ⟨hfirst, List.forall_mem_singleton.mpr hq⟩⟩
  · rename_i hbegin
    refine ⟨by simp [hbegin], hfirst⟩

theorem argFrom_first (hpos : 0 < len) (hlen : len < 2 ^ 63) (hfuel : size ≤ p + fuel) :
    let out := argFrom mem nameMem size len fuel p
    (∃ found, FirstFrom (ArgHit mem nameMem size len) p size found ∧
      out.value = found.map (argValue mem size len)) ∧ (∀ i ∈ out.text, i < size) ∧ ∀ i ∈ out.name, i < len := by
  have hnone : size ≤ p → FirstFrom (ArgHit mem nameMem size len) p size none := by
    intro hle i hi hlt
    omega
  induction fuel generalizing p with
  | zero => exact ⟨⟨none, hnone hfuel, rfl⟩, List.forall_mem_nil _, List.forall_mem_nil _⟩
  | succ fuel ih =>
      dsimp only
      rw [argFrom]
      split
      · rename_i hle
        exact ⟨⟨none, hnone hle, rfl⟩, List.forall_mem_nil _, List.forall_mem_nil _⟩
      · obtain ⟨hfirst, htext, hname⟩ :=
          strlcasestrn_first mem nameMem size p hpos hlen
        generalize strlcasestrn mem nameMem p (size - 1) (toSize (len - 1)) = searched at hfirst htext hname ⊢
        dsimp only
        cases hvalue : searched.value with
        | none =>
            rw [hvalue] at hfirst
            refine ⟨⟨none, fun i hi hlt hhit => hfirst i hi hlt ⟨hhit.2.1, hhit.2.2.1⟩, rfl⟩, htext, hname⟩
        | some q =>
            rw [hvalue] at hfirst
            obtain ⟨hle, hlt, ⟨hq, hmatch⟩, hbefore⟩ := hfirst
            obtain ⟨hends, hreads⟩ := argEnds_spec mem hq
            -- Nothing before the match is a hit.
            have hskip : ∀ i, p ≤ i → i < q → ¬ArgHit mem nameMem size len i :=
              fun i hi hiq hhit => hbefore i hi hiq ⟨hhit.2.1, hhit.2.2.1⟩
            have hreadsHere : ∀ i ∈ searched.text ++ (argEnds mem q len).2, i < size :=
              List.forall_mem_append.mpr ⟨htext, hreads⟩
            dsimp only
            by_cases hend : (argEnds mem q len).1 = true
            · obtain ⟨hbegin, hequals⟩ := hends.mp hend
              have hchr := (strlchr_first mem 38 (size - q) q).2
              rw [if_pos hend]
              refine ⟨⟨some q, ⟨hle, hlt, ⟨hbegin, hq, hmatch, hequals⟩, hskip⟩, rfl⟩, ?_, hname⟩
              refine List.forall_mem_append.mpr ⟨hreadsHere, fun i hi => ?_⟩
              have := hchr i hi
              omega
            · have hnot : ¬ArgHit mem nameMem size len q := fun hhit => hend (hends.mpr ⟨hhit.1, hhit.2.2.2⟩)
              obtain ⟨⟨found, hfound, hout⟩, htexts, hnames⟩ :=
                ih (p := q + 1) (by omega) fun h i hi hlt => by omega
              rw [if_neg hend]
              refine ⟨⟨found, ?_, hout⟩, ?_, ?_⟩
              · exact (hfound.next hnot).skip hle hskip
              · exact List.forall_mem_append.mpr ⟨hreadsHere, htexts⟩
              · exact List.forall_mem_append.mpr ⟨hname, hnames⟩

theorem itemAt_iff {item : Bytes} : ItemAt (slice mem 0 size) q item ↔
    q ≤ size ∧ (q = 0 ∨ mem (q - 1) = 38) ∧ item = (slice mem q size).takeWhile (· ≠ 38) := by
  unfold ItemAt
  rw [slice_length, Nat.sub_zero]
  apply and_congr_right
  intro hle
  have hdrop : (slice mem 0 size).drop q = slice mem q size := by
    rw [slice_append (Nat.zero_le q) hle]
    exact List.drop_left' (by rw [slice_length, Nat.sub_zero])
  have hbefore : (q = 0 ∨ (slice mem 0 size)[q - 1]? = some 38) ↔ (q = 0 ∨ mem (q - 1) = 38) := by
    apply or_congr_right'
    intro hpos
    rw [slice_getElem?, if_pos (by omega), Nat.zero_add, Option.some.injEq]
  rw [hdrop, hbefore]

theorem slice_lower_iff {n : Nat} : (slice mem q (q + n)).map tolower = (slice nameMem p (p + n)).map tolower ↔
    ∀ i < n, tolower (mem (q + i)) = tolower (nameMem (p + i)) := by
  unfold slice
  simp only [Nat.add_sub_cancel_left, List.map_map, List.map_inj_left, List.mem_range, Function.comp_apply]

theorem takeWhile_run {c d : UInt8} {front back : Bytes} (hfront : ∀ a ∈ front, a ≠ c) (hcd : d = c) :
    (front ++ d :: back).takeWhile (· ≠ c) = front := by
  rw [List.takeWhile_append_of_pos (by simpa using hfront), List.takeWhile_cons_of_neg (by simpa using hcd),
    List.append_nil]

-- The bytes of an item: the name, a '=' and the value
theorem names_iff {item : Bytes} (hitem : item = (slice mem q size).takeWhile (· ≠ 38)) (hle : q ≤ size) :
    Names (slice nameMem 0 len) item ↔ q + len < size ∧ mem (q + len) = 61 ∧
      (∀ c ∈ slice mem q (q + len), c ≠ 38 ∧ c ≠ 61) ∧ ∀ i < len, tolower (mem (q + i)) = tolower (nameMem i) := by
  have hname : slice nameMem 0 len = slice nameMem 0 (0 + len) := by rw [Nat.zero_add]
  have hlower : (slice mem q (q + len)).map tolower = (slice nameMem 0 len).map tolower ↔
      ∀ i < len, tolower (mem (q + i)) = tolower (nameMem i) := by
    rw [hname, slice_lower_iff]
    simp only [Nat.zero_add]
  unfold Names
  constructor
  · rintro ⟨hequals, hkey⟩
    obtain ⟨key, back, hsplit, hnone⟩ := List.eq_append_cons_of_mem hequals
    have hkeys : ∀ a ∈ key, a ≠ 61 := fun a ha heq => hnone (heq ▸ ha)
    rw [hsplit, takeWhile_run hkeys rfl] at hkey
    have hlength : key.length = len := by
      have := congrArg List.length hkey
      simpa only [List.length_map, slice_length, Nat.sub_zero] using this
    obtain ⟨more, hmore⟩ : item <+: slice mem q size := hitem ▸ List.takeWhile_prefix _
    rw [hsplit, List.append_assoc, List.cons_append] at hmore
    have hsize := congrArg List.length hmore
    rw [slice_length, List.length_append, List.length_cons] at hsize
    have hslice : slice mem q (q + len) = key := by
      have hpart : slice mem q size = [] ++ (key ++ 61 :: (back ++ more)) := hmore.symm
      have := slice_part hpart
      rwa [List.length_nil, Nat.add_zero, hlength] at this
    have hbyte : mem (q + len) = 61 := by
      have hpart : slice mem q size = key ++ ([61] ++ (back ++ more)) := hmore.symm
      have hone := slice_part hpart
      rw [hlength, List.length_singleton, slice_succ (Nat.le_refl _), slice_self] at hone
      exact (List.cons.inj hone).1
    refine ⟨by omega, hbyte, ?_, ?_⟩
    · rw [hslice]
      intro c hc
      have hmem : c ∈ item := hsplit ▸ List.mem_append_left _ hc
      rw [hitem] at hmem
      exact ⟨by simpa using List.mem_takeWhile_imp hmem, hkeys c hc⟩
    · rw [← hslice] at hkey
      exact hlower.mp hkey
  · rintro ⟨hlt, hbyte, hkey, hequal⟩
    have hrest : slice mem q size = slice mem q (q + len) ++ 61 :: slice mem (q + len + 1) size := by
      rw [slice_append (Nat.le_add_right q len) (Nat.le_of_lt hlt), slice_cons hlt, hbyte]
    have hitem' : item = slice mem q (q + len) ++ 61 :: (slice mem (q + len + 1) size).takeWhile (· ≠ 38) := by
      rw [hitem, hrest, List.takeWhile_append_of_pos (by simpa using fun c hc => (hkey c hc).1),
        List.takeWhile_cons_of_pos (by decide)]
    rw [hitem', takeWhile_run (fun c hc => (hkey c hc).2) rfl]
    exact ⟨List.mem_append_right _ List.mem_cons_self, hlower.mpr hequal⟩

theorem matchesAt_of_equal (hpos : 0 < len) (h : ∀ i < len, tolower (mem (q + i)) = tolower (nameMem i)) :
    MatchesAt mem nameMem (len - 1) q := by
  refine ⟨h 0 hpos, compareFrom_of_equal fun i hi => ?_⟩
  have hnext := h (i + 1) (by omega)
  rwa [Nat.add_right_comm q, Nat.add_comm 1 i]

-- The bytes that mean something in a query string are no letters.
theorem tolower_eq_mark {c d : UInt8} (hd : d = 0 ∨ d = 38 ∨ d = 61) (h : tolower c = tolower d) : c = d := by
  have hbyte : ∀ c : UInt8, (tolower c = 0 → c = 0) ∧ (tolower c = 38 → c = 38) ∧ (tolower c = 61 → c = 61) :=
    byte_cases (by decide +kernel)
  obtain rfl | rfl | rfl := hd
  · exact (hbyte c).1 h
  · exact (hbyte c).2.1 h
  · exact (hbyte c).2.2 h

theorem equal_of_matchesAt (hnul : ∀ i < len, nameMem i ≠ 0) (h : MatchesAt mem nameMem (len - 1) q) :
    ∀ i < len, tolower (mem (q + i)) = tolower (nameMem i) := by
  have hrest := equal_of_compareFrom
    (fun i hi hzero => hnul (1 + i) (by omega) (tolower_eq_mark (.inl rfl) hzero)) h.2
  intro i hi
  cases i with
  | zero => exact h.1
  | succ i =>
      have hnext := hrest i (by omega)
      rwa [Nat.add_right_comm q, Nat.add_comm 1 i] at hnext

-- The end of the item that begins at q, where c ends an item
theorem strlchr_end {c : UInt8} {item : Bytes} (hitem : item = (slice mem q size).takeWhile (· ≠ c)) (hle : q ≤ size) :
    (strlchr mem c (size - q) q).value.getD size = q + item.length := by
  obtain ⟨hfirst, -⟩ := strlchr_first mem c (size - q) q
  have hstop : q + (size - q) = size := by omega
  rw [hstop] at hfirst
  have hbytes : ∀ stop, stop ≤ size → (∀ i, q ≤ i → i < stop → ¬mem i = c) → ∀ a ∈ slice mem q stop, a ≠ c := by
    intro stop _ hnone a ha
    obtain ⟨i, hi, rfl⟩ := List.mem_map.mp ha
    have := List.mem_range.mp hi
    exact hnone (q + i) (Nat.le_add_right q i) (by omega)
  cases hvalue : (strlchr mem c (size - q) q).value with
  | none =>
      rw [hvalue] at hfirst
      have hwhole : item = slice mem q size := by
        rw [hitem]
        apply List.takeWhile_eq_self_iff.mpr
        simpa using hbytes size (Nat.le_refl _) hfirst
      rw [hwhole, slice_length]
      exact hstop.symm
  | some e =>
      rw [hvalue] at hfirst
      obtain ⟨hqe, hlt, hbyte, hnone⟩ := hfirst
      have hwhole : item = slice mem q e := by
        rw [hitem, slice_append hqe (Nat.le_of_lt hlt), slice_cons hlt, takeWhile_run (hbytes e (Nat.le_of_lt hlt) hnone) hbyte]
      rw [hwhole, slice_length]
      show e = q + (e - q)
      omega

theorem hit_of_names {item : Bytes} (hpos : 0 < len) (hitem : ItemAt (slice mem 0 size) q item)
    (h : Names (slice nameMem 0 len) item) : ArgHit mem nameMem size len q := by
  obtain ⟨hle, hbegin, heq⟩ := itemAt_iff.mp hitem
  obtain ⟨hlt, hbyte, -, hequal⟩ := (names_iff heq hle).mp h
  exact ⟨hbegin, hlt, matchesAt_of_equal hpos hequal, hbyte⟩

theorem names_length {name item : Bytes} (h : Names name item) : name.length < item.length := by
  have hinitial := List.takeWhile_prefix (l := item) (p := fun c : UInt8 => decide (c ≠ 61))
  have hlength := congrArg List.length h.2
  simp only [List.length_map] at hlength
  rw [← hlength]
  refine Nat.lt_of_le_of_ne hinitial.length_le fun heq => ?_
  have hall := List.takeWhile_eq_self_iff.mp (hinitial.eq_of_length heq)
  exact absurd (hall 61 h.1) (by decide)

theorem names_of_hit {item : Bytes} (hclean : ∀ c ∈ slice nameMem 0 len, c ≠ 0 ∧ c ≠ 38 ∧ c ≠ 61)
    (hitem : ItemAt (slice mem 0 size) q item) (h : ArgHit mem nameMem size len q) :
    Names (slice nameMem 0 len) item := by
  have hname : ∀ i < len, nameMem i ≠ 0 ∧ nameMem i ≠ 38 ∧ nameMem i ≠ 61 := by
    intro i hi
    apply hclean
    refine List.mem_map.mpr ⟨i, List.mem_range.mpr hi, ?_⟩
    rw [Nat.zero_add]
  obtain ⟨-, hlt, hmatch, hbyte⟩ := h
  obtain ⟨hle, -, heq⟩ := itemAt_iff.mp hitem
  have hequal := equal_of_matchesAt (fun i hi => (hname i hi).1) hmatch
  refine (names_iff heq hle).mpr ⟨hlt, hbyte, ?_, hequal⟩
  intro c hc
  obtain ⟨i, hi, rfl⟩ := List.mem_map.mp hc
  have hi' : i < len := by simpa using hi
  obtain ⟨-, h38, h61⟩ := hname i hi'
  refine ⟨fun hmark => ?_, fun hmark => ?_⟩
  · exact h38 (tolower_eq_mark (.inr (.inl rfl)) (hmark ▸ (hequal i hi').symm))
  · exact h61 (tolower_eq_mark (.inr (.inr rfl)) (hmark ▸ (hequal i hi').symm))

theorem httpArg_empty_name (hsize : 0 < size) : 0 ∈ (httpArg mem nameMem size 0).name := by
  have hsearched : ∀ last n, 0 ∈ (strlcasestrn mem nameMem 0 last n).name := fun _ _ => List.mem_cons_self
  obtain ⟨fuel, rfl⟩ := Nat.exists_eq_succ_of_ne_zero (Nat.ne_of_gt hsize)
  rw [httpArg, if_neg (Nat.succ_ne_zero fuel), argFrom, if_neg (Nat.not_succ_le_zero fuel)]
  dsimp only
  split
  · exact hsearched _ _
  · split
    · exact hsearched _ _
    · exact List.mem_append_left _ (hsearched _ _)

variable (mem nameMem) in
theorem httpArg_first (hsize : 0 < size) (hpos : 0 < len) (hlen : len < 2 ^ 63) :
    let out := httpArg mem nameMem size len
    (∃ found, FirstFrom (ArgHit mem nameMem size len) 0 size found ∧
      out.value = found.map (argValue mem size len)) ∧ (∀ i ∈ out.text, i < size) ∧ ∀ i ∈ out.name, i < len := by
  dsimp only
  rw [httpArg, if_neg (Nat.ne_of_gt hsize)]
  exact argFrom_first hpos hlen (by omega)

-- The first item that begins with the name and a '=' is one with the name.
def ItemRight (mem nameMem : Nat → UInt8) (size len : Nat) : Prop :=
  ∀ q item, ArgHit mem nameMem size len q → (∀ i < q, ¬ArgHit mem nameMem size len i) →
    ItemAt (slice mem 0 size) q item → Names (slice nameMem 0 len) item

theorem itemAt_hit (h : ArgHit mem nameMem size len q) :
    ItemAt (slice mem 0 size) q ((slice mem q size).takeWhile (· ≠ 38)) := by
  have hlt := h.2.1
  exact itemAt_iff.mpr ⟨by omega, h.1, rfl⟩

theorem right_of_items (hsize : size < 2 ^ 63) (hpos : 0 < len) (hlen : len < 2 ^ 63) (hne : 0 < size)
    (h : ItemRight mem nameMem size len) :
    ArgRight (slice mem 0 size) (slice nameMem 0 len) (httpArg mem nameMem size len) := by
  obtain ⟨⟨found, hfirst, hvalue⟩, htext, hname⟩ := httpArg_first mem nameMem hne hpos hlen
  have hargs : (slice mem 0 size).length = size := slice_length mem 0 size
  have hnames : (slice nameMem 0 len).length = len := slice_length nameMem 0 len
  refine ⟨by rwa [hargs], by rwa [hnames], ?_, ?_⟩
  · intro v n hout
    cases found with
    | none =>
        rw [hvalue] at hout
        cases hout
    | some q =>
        obtain ⟨-, hlt, hhit, hbefore⟩ := hfirst
        have hitem := itemAt_hit hhit
        have hright := h q _ hhit (fun i hi => hbefore i (Nat.zero_le i) hi) hitem
        have hend : (strlchr mem 38 (size - q) q).value.getD size = q + ((slice mem q size).takeWhile (· ≠ 38)).length :=
          strlchr_end rfl (Nat.le_of_lt hlt)
        have hlong := names_length hright
        have hshort := (List.takeWhile_prefix (l := slice mem q size) (p := fun c => decide (c ≠ 38))).length_le
        rw [slice_length] at hshort
        rw [hnames] at hlong
        rw [hvalue, Option.map_some, argValue, hend] at hout
        obtain ⟨rfl, rfl⟩ := Prod.mk.inj (Option.some.inj hout)
        refine ⟨q, _, hitem, hright, ?_, by rw [hnames], ?_⟩
        · intro i item' hi hitem' hnames'
          exact hbefore i (Nat.zero_le i) hi (hit_of_names hpos hitem' hnames')
        · unfold toSize
          omega
  · intro hout q item hitem hright
    cases found with
    | none =>
        have hhit := hit_of_names hpos hitem hright
        have hlt := hhit.2.1
        exact hfirst q (Nat.zero_le q) (by omega) hhit
    | some q' =>
        rw [hvalue] at hout
        cases hout

theorem items_of_right (hpos : 0 < len) (hlen : len < 2 ^ 63) (hne : 0 < size)
    (h : ArgRight (slice mem 0 size) (slice nameMem 0 len) (httpArg mem nameMem size len)) :
    ItemRight mem nameMem size len := by
  obtain ⟨⟨found, hfirst, hvalue⟩, -, -⟩ := httpArg_first mem nameMem hne hpos hlen
  intro q item hhit hbefore hitem
  have hnames : (slice nameMem 0 len).length = len := slice_length nameMem 0 len
  cases found with
  | none =>
      have hlt := hhit.2.1
      exact absurd hhit (hfirst q (Nat.zero_le q) (by omega))
  | some q' =>
      obtain ⟨-, -, hhit', hbefore'⟩ := hfirst
      have hsame : q' = q := by
        by_contra hdiff
        obtain hlt | hlt := Nat.lt_or_gt_of_ne hdiff
        · exact hbefore q' hlt hhit'
        · exact hbefore' q (Nat.zero_le q) hlt hhit
      rw [hsame] at hvalue
      obtain ⟨p, item', hitem', hright, -, hv, -⟩ := h.found _ _ hvalue
      rw [hnames] at hv
      obtain rfl : p = q := by omega
      obtain ⟨-, -, heq⟩ := itemAt_iff.mp hitem
      obtain ⟨-, -, heq'⟩ := itemAt_iff.mp hitem'
      rwa [heq, ← heq']

-- The code returns the first item that begins with the name, in which the comparison may have ended at a NUL byte or
-- have passed a '=' or a '&'. When it is not the item that is looked for the answer is wrong.
theorem httpArg_right_iff (mem nameMem : Nat → UInt8) (size len : Nat) (hsize : size < 2 ^ 63) (hlen : len < 2 ^ 63) :
    (ArgRight (slice mem 0 size) (slice nameMem 0 len) (httpArg mem nameMem size len) ↔
      size = 0 ∨ 0 < len ∧ ItemRight mem nameMem size len) ∧
    (0 < len → (∀ c ∈ slice nameMem 0 len, c ≠ 0 ∧ c ≠ 38 ∧ c ≠ 61) →
      ArgRight (slice mem 0 size) (slice nameMem 0 len) (httpArg mem nameMem size len)) := by
  have hiff : ArgRight (slice mem 0 size) (slice nameMem 0 len) (httpArg mem nameMem size len) ↔
      size = 0 ∨ 0 < len ∧ ItemRight mem nameMem size len := by
    obtain rfl | hne := Nat.eq_zero_or_pos size
    · refine ⟨fun _ => .inl rfl, fun _ => ⟨List.forall_mem_nil _, List.forall_mem_nil _, nofun, fun _ q item hitem => ?_⟩⟩
      obtain ⟨hle, -, heq⟩ := itemAt_iff.mp hitem
      rw [names_iff heq hle]
      omega
    · obtain rfl | hpos := Nat.eq_zero_or_pos len
      · refine ⟨fun h => ?_, fun h => by omega⟩
        exact absurd (h.inName 0 (httpArg_empty_name hne)) (Nat.not_lt_zero _)
      · refine ⟨fun h => .inr ⟨hpos, items_of_right hpos hlen hne h⟩, fun h => ?_⟩
        obtain hzero | ⟨-, hitems⟩ := h
        · omega
        · exact right_of_items hsize hpos hlen hne hitems
  refine ⟨hiff, fun hpos hclean => hiff.mpr (.inr ⟨hpos, fun q item hhit _ hitem => ?_⟩)⟩
  exact names_of_hit hclean hitem hhit

theorem httpArg_right_iff_second :
    let mem : Nat → UInt8 := fun i => (ngxString "a=1&b=2").getD i 0
    let nameMem : Nat → UInt8 := fun i => (ngxString "B").getD i 0
    (httpArg mem nameMem 7 1).value = some (6, 1) ∧
      ArgRight (slice mem 0 7) (slice nameMem 0 1) (httpArg mem nameMem 7 1) := by
  intro mem nameMem
  have hvalue : (httpArg mem nameMem 7 1).value = some (6, 1) := by decide
  have hname : slice nameMem 0 1 = [66] := by decide
  have hclean : ∀ c ∈ slice nameMem 0 1, c ≠ 0 ∧ c ≠ 38 ∧ c ≠ 61 := by
    rw [hname]
    exact List.forall_mem_singleton.mpr (by decide)
  exact ⟨hvalue, (httpArg_right_iff mem nameMem 7 1 (by decide) (by decide)).2 Nat.one_pos hclean⟩

-- A name with a '&': the item is taken to end before its value begins. An empty name: a byte behind it is compared.
theorem ampersand_name_wraps :
    let mem : Nat → UInt8 := fun i => (ngxString "a&b=1").getD i 0
    let nameMem : Nat → UInt8 := fun i => (ngxString "a&b").getD i 0
    (httpArg mem nameMem 5 3).value = some (4, 2 ^ 64 - 3) ∧
      ¬ArgRight (slice mem 0 5) (slice nameMem 0 3) (httpArg mem nameMem 5 3) ∧
      0 ∈ (httpArg mem nameMem 5 0).name ∧
      ¬ArgRight (slice mem 0 5) (slice nameMem 0 0) (httpArg mem nameMem 5 0) := by
  intro mem nameMem
  have hvalue : (httpArg mem nameMem 5 3).value = some (4, 2 ^ 64 - 3) := by decide
  have hread : 0 ∈ (httpArg mem nameMem 5 0).name := by decide
  refine ⟨hvalue, ?_, hread, ?_⟩
  · intro hright
    obtain ⟨p, item, ⟨hle, -, heq⟩, -, -, -, hend⟩ := hright.found _ _ hvalue
    have hlong : item.length ≤ 5 := by
      rw [heq]
      exact Nat.le_trans (List.takeWhile_prefix _).length_le (by rw [List.length_drop, slice_length]; omega)
    rw [slice_length] at hle
    omega
  · intro hright
    exact absurd (hright.inName 0 hread) (Nat.not_lt_zero _)

end Args

end Nginx.HttpParse
