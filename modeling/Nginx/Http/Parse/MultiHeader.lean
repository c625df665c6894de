import Nginx.Http.Parse.Lookup

namespace Nginx.HttpParse

-- h[i]->value: the bytes from its data on, and its length
structure HeaderValue where
  mem : Nat → UInt8
  size : Nat
  terminated : mem size = 0
  plain : ∀ i < size, mem i ≠ 0

inductive ItemTurn where
  | found (value : Option (Nat × Nat))
  | next (start : Nat)
deriving DecidableEq

def isSeparator (ch : UInt8) : Bool := ch = 59 || ch = 44

section Model

variable (mem nameMem : Nat → UInt8)

-- while (start < end && *start == ' ') { start++; } for fuel bytes
def spacesFrom : Nat → Nat → Traced Nat
  | 0, start => ⟨start, [], []⟩
  | fuel + 1, start => if mem start = 32 then (spacesFrom fuel (start + 1)).after [start] [] else ⟨start, [start], []⟩

-- The first loop at skip
def separatorFrom : Nat → Nat → Traced Nat
  | 0, start => ⟨start, [], []⟩
  | fuel + 1, start =>
    if isSeparator (mem start) then ⟨start + 1, [start], []⟩ else (separatorFrom fuel (start + 1)).after [start] []

def skipItem (size start : Nat) : Traced ItemTurn :=
  let separator := separatorFrom mem (size - start) start
  let spaces := spacesFrom mem (size - separator.value) separator.value
  ⟨.next spaces.value, separator.text ++ spaces.text, []⟩

-- Behind the name and the spaces, with value == NULL
def bareTurn (size start : Nat) : Traced ItemTurn :=
  if start = size then ⟨.found none, [], []⟩
  else if mem start = 44 then ⟨.found none, [start], []⟩
  else (skipItem mem size start).after [start] []

-- The loop over last is the one of ngx_strlchr.
def valueTurn (size start : Nat) : Traced ItemTurn :=
  if start = size then skipItem mem size start
  else if mem start ≠ 61 then (skipItem mem size (start + 1)).after [start] []
  else
    let spaces := spacesFrom mem (size - (start + 1)) (start + 1)
    let last := strlchr mem 59 (size - spaces.value) spaces.value
    ⟨.found (some (spaces.value, last.value.getD size - spaces.value)), start :: (spaces.text ++ last.text), []⟩

-- The body of the loop over start, where wanted is value != NULL
def itemTurn (wanted : Bool) (size len start : Nat) : Traced ItemTurn :=
  let compared := compareFrom mem nameMem len start 0
  if compared.value then
    let spaces := spacesFrom mem (size - (start + len)) (start + len)
    let turn := if wanted then valueTurn mem size spaces.value else bareTurn mem size spaces.value
    (turn.after spaces.text []).after compared.text compared.name
  else (skipItem mem size start).after compared.text compared.name

def itemLoop (wanted : Bool) (size len : Nat) : Nat → Nat → Traced (Option (Option (Nat × Nat)))
  | 0, _ => ⟨none, [], []⟩
  | fuel + 1, start =>
    if size ≤ start then ⟨none, [], []⟩
    else
      let turn := itemTurn mem nameMem wanted size len start
      match turn.value with
      | .found value => ⟨some value, turn.text, turn.name⟩
      | .next start => (itemLoop wanted size len fuel start).after turn.text turn.name

-- One header: the length is compared first.
def headerItems (wanted : Bool) (h : HeaderValue) (len : Nat) : Traced (Option (Option (Nat × Nat))) :=
  if h.size < len then ⟨none, [], []⟩ else itemLoop h.mem nameMem wanted h.size len h.size 0

-- What is returned is the index with the position and the length of the value: none is NGX_DECLINED. The bytes of the
-- headers that are read are given by the index and the position.
def multiFrom (wanted : Bool) (len : Nat) : List HeaderValue → Nat → Option (Nat × Option (Nat × Nat)) × List (Nat × Nat)
  | [], _ => (none, [])
  | h :: headers, i =>
    let items := headerItems nameMem wanted h len
    let reads := items.text.map fun p => (i, p)
    match items.value with
    | some value => (some (i, value), reads)
    | none =>
      let out := multiFrom wanted len headers (i + 1)
      (out.1, reads ++ out.2)

-- ngx_http_parse_multi_header_lines
def parseMultiHeaderLines (wanted : Bool) (headers : List HeaderValue) (len : Nat) :
    Option (Nat × Option (Nat × Nat)) × List (Nat × Nat) :=
  multiFrom nameMem wanted len headers 0

end Model

-- A value from the begin of an item on
def nextItem (rest : Bytes) : Bytes := ((rest.dropWhile fun c => !isSeparator c).drop 1).dropWhile (· = 32)

def itemOf (rest : Bytes) : Bytes := rest.takeWhile fun c => !isSeparator c

theorem nextItem_length (c : UInt8) (rest : Bytes) : (nextItem (c :: rest)).length < (c :: rest).length := by
  have hsep := (List.dropWhile_suffix (l := c :: rest) fun c => !isSeparator c).length_le
  have hspaces := (List.dropWhile_suffix (l := ((c :: rest).dropWhile fun c => !isSeparator c).drop 1)
    fun c : UInt8 => decide (c = 32)).length_le
  unfold nextItem
  rw [List.length_drop] at hspaces
  rw [List.length_cons] at hsep ⊢
  omega

def items : Bytes → List Bytes
  | [] => []
  | c :: rest => (c :: rest) :: items (nextItem (c :: rest))
termination_by rest => rest.length
decreasing_by exact nextItem_length c rest

-- What follows the name and the spaces in an item that begins with the name
def afterName (name item : Bytes) : Option Bytes :=
  if (item.take name.length).map tolower = name.map tolower then some ((item.drop name.length).dropWhile (· = 32))
  else none

def valueItem (name rest : Bytes) : Bool := (afterName name (itemOf rest)).bind List.head? = some 61

def bareItem (name rest : Bytes) : Bool :=
  afterName name (itemOf rest) = some [] && (rest.dropWhile fun c => !isSeparator c).head? ≠ some 59

-- The name without a value, and a separator
def valueless (name rest : Bytes) : Bool :=
  afterName name (itemOf rest) = some [] && rest.dropWhile (fun c => !isSeparator c) ≠ []

-- The text behind the '=' and the spaces
def valueRest (name rest : Bytes) : Bytes := (((rest.drop name.length).dropWhile (· = 32)).drop 1).dropWhile (· = 32)

def wantedItem (wanted : Bool) (name rest : Bytes) : Bool := if wanted then valueItem name rest else bareItem name rest

def HeaderValue.text (h : HeaderValue) : Bytes := slice h.mem 0 h.size

-- The value that is set for an item
def ValueOf (h : HeaderValue) (name rest : Bytes) (wanted : Bool) (value : Option (Nat × Nat)) : Prop :=
  if wanted then ∃ at' n, value = some (at', n) ∧ at' ≤ h.size ∧ slice h.mem at' h.size = valueRest name rest ∧
    n = ((valueRest name rest).takeWhile (· ≠ 59)).length
  else value = none

structure MultiRight (wanted : Bool) (headers : List HeaderValue) (name : Bytes)
    (out : Option (Nat × Option (Nat × Nat)) × List (Nat × Nat)) : Prop where
  inText : ∀ i p, (i, p) ∈ out.2 → ∃ h, headers[i]? = some h ∧ p ≤ h.size
  found : ∀ i value, out.1 = some (i, value) → ∃ h rest, headers[i]? = some h ∧
    (items h.text).find? (wantedItem wanted name) = some rest ∧ ValueOf h name rest wanted value ∧
    ∀ j < i, ∀ h', headers[j]? = some h' → ∀ rest' ∈ items h'.text, ¬wantedItem wanted name rest'
  declined : out.1 = none → ∀ h ∈ headers, ∀ rest ∈ items h.text, ¬wantedItem wanted name rest

def tokenChar (c : UInt8) : Bool := isAlpha c || isDigitChar c || c ∈ ngxString "!#$%&'*+-.^_`|~"

section Visit

variable {α : Type}

-- A search in which an element with q that is tested hides the one behind it
def visit (p q : α → Bool) : Bool → List α → Option α
  | _, [] => none
  | hidden, a :: l => if p a && !hidden then some a else visit p q (q a && !hidden) l

-- How many elements with q a list ends with
def trailing (q : α → Bool) (l : List α) : Nat := (l.reverse.takeWhile q).length

theorem trailing_snoc (q : α → Bool) (l : List α) (a : α) :
    trailing q (l ++ [a]) = if q a then trailing q l + 1 else 0 := by
  unfold trailing
  rw [List.reverse_append, List.reverse_singleton, List.singleton_append, List.takeWhile_cons]
  split <;> rfl

theorem hidden_snoc (q : α → Bool) (l : List α) (a : α) :
    (q a && !decide (¬Even (trailing q l))) = decide (¬Even (trailing q (l ++ [a]))) := by
  rw [trailing_snoc]
  cases q a with
  | false => simp
  | true => by_cases heven : Even (trailing q l) <;> simp [Nat.even_add_one, heven]

theorem mem_of_visit {p q : α → Bool} {hidden : Bool} {l : List α} {a : α} (h : visit p q hidden l = some a) :
    a ∈ l ∧ p a = true := by
  induction l generalizing hidden with
  | nil => cases h
  | cons b l ih =>
      rw [visit] at h
      split at h
      · rename_i hp
        obtain rfl := Option.some.inj h
        exact ⟨List.mem_cons_self, (Bool.and_eq_true_iff.mp hp).1⟩
      · obtain ⟨hmem, hp⟩ := ih h
        exact ⟨List.mem_cons_of_mem b hmem, hp⟩

-- The induction goes over what is still to be searched, with the elements before it.
theorem visit_eq_find_iff {p q : α → Bool} (seen l : List α) (hnodup : l.Nodup) :
    visit p q (decide ¬Even (trailing q seen)) l = l.find? p ↔
      l.find? p = none ∨ Even (trailing q (seen ++ l.takeWhile fun a => !p a)) := by
  induction l generalizing seen with
  | nil => exact iff_of_true rfl (.inl rfl)
  | cons a l ih =>
      obtain ⟨hmem, hnodup⟩ := List.nodup_cons.mp hnodup
      cases hp : p a with
      | true =>
          rw [visit, List.find?_cons_of_pos hp, List.takeWhile_cons_of_neg (by simp [hp]), List.append_nil, hp]
          by_cases heven : Even (trailing q seen)
          · exact iff_of_true (by simp [heven]) (.inr heven)
          · refine iff_of_false ?_ (by simp [heven])
            simp only [heven, not_false_eq_true, decide_true, Bool.not_true, Bool.and_false, Bool.false_eq_true, if_false]
            exact fun h => hmem (mem_of_visit h).1
      | false =>
          rw [visit, List.find?_cons_of_neg (by simp [hp]), List.takeWhile_cons_of_pos (by simp [hp]), hp, Bool.false_and,
            if_neg Bool.false_ne_true, hidden_snoc, ih (seen ++ [a]) hnodup, List.append_assoc, List.singleton_append]

end Visit

section Items

variable {mem nameMem : Nat → UInt8} {size len n start s1 s2 : Nat}

-- What equals a token character is none of the bytes that the loop stops at.
theorem token_lower {c d : UInt8} (hd : tokenChar d = true) (h : tolower c = tolower d) :
    c ≠ 0 ∧ c ≠ 32 ∧ c ≠ 61 ∧ isSeparator c = false := by
  have hlower : ∀ d : UInt8, tokenChar d = true →
      tolower d ≠ 0 ∧ tolower d ≠ 32 ∧ tolower d ≠ 61 ∧ isSeparator (tolower d) = false := by
    simp only [tokenChar, ngxString_ofList]
    exact byte_cases (by decide +kernel)
  have hsame : ∀ c : UInt8, (c = 0 ∨ c = 32 ∨ c = 61 ∨ isSeparator c = true) → tolower c = c :=
    byte_cases (by decide +kernel)
  obtain ⟨h0, h32, h61, hsep⟩ := hlower d hd
  rw [← h] at h0 h32 h61 hsep
  refine ⟨?_, ?_, ?_, ?_⟩
  · exact fun hc => h0 ((hsame c (.inl hc)).trans hc)
  · exact fun hc => h32 ((hsame c (.inr (.inl hc))).trans hc)
  · exact fun hc => h61 ((hsame c (.inr (.inr (.inl hc)))).trans hc)
  · refine Bool.eq_false_iff.mpr fun hc => ?_
    rw [hsame c (.inr (.inr (.inr hc))), hc] at hsep
    cases hsep

-- The comparison stops at the NUL byte behind the text.
theorem compareFrom_suffix (hend : mem size = 0) (hclean : ∀ i < n, tolower (nameMem (s2 + i)) ≠ 0) (hle : s1 ≤ size) :
    ((compareFrom mem nameMem n s1 s2).value = true ↔
      ((slice mem s1 size).take n).map tolower = (slice nameMem s2 (s2 + n)).map tolower) ∧
    ∀ i ∈ (compareFrom mem nameMem n s1 s2).text, i ≤ size := by
  induction n generalizing s1 s2 with
  | zero => exact ⟨by simp [compareFrom, slice_self], List.forall_mem_nil _⟩
  | succ n ih =>
      have hhere : ∀ i ∈ [s1], i ≤ size := List.forall_mem_singleton.mpr hle
      have hname : tolower (nameMem s2) ≠ 0 := hclean 0 (Nat.succ_pos n)
      rw [compareFrom, slice_step]
      obtain rfl | hlt := Nat.eq_or_lt_of_le hle
      · have hne : tolower (mem s1) ≠ tolower (nameMem s2) := by
          rw [hend]
          exact fun h => hname (h ▸ by decide)
        rw [if_neg hne, slice_self]
        exact ⟨by simp, hhere⟩
      · have hnext : s1 + 1 ≤ size := hlt
        have hcleanNext : ∀ i < n, tolower (nameMem (s2 + 1 + i)) ≠ 0 := by
          intro i hi
          rw [Nat.add_right_comm s2]
          exact hclean (i + 1) (Nat.succ_lt_succ hi)
        obtain ⟨hiff, hreads⟩ := ih hcleanNext hnext
        rw [slice_cons hlt, List.take_succ_cons, List.map_cons, List.map_cons, List.cons.injEq]
        split
        · rename_i heq
          rw [if_pos (heq ▸ hname)]
          exact ⟨hiff.trans (and_iff_right heq).symm, List.forall_mem_append.mpr ⟨hhere, hreads⟩⟩
        · rename_i hne
          exact ⟨by simp [hne], hhere⟩

variable (mem) in
theorem spacesFrom_spec (fuel start : Nat) :
    let out := spacesFrom mem fuel start
    start ≤ out.value ∧ out.value ≤ start + fuel ∧
      slice mem out.value (start + fuel) = (slice mem start (start + fuel)).dropWhile (· = 32) ∧
      ∀ i ∈ out.text, i < start + fuel := by
  induction fuel generalizing start with
  | zero => exact ⟨Nat.le_refl _, Nat.le_refl _, by simp [spacesFrom, slice_self], List.forall_mem_nil _⟩
  | succ fuel ih =>
      obtain ⟨hle, hstop, hslice, hreads⟩ := ih (start + 1)
      have hhere : ∀ i ∈ [start], i < start + (fuel + 1) := List.forall_mem_singleton.mpr (by omega)
      dsimp only
      rw [spacesFrom, slice_step]
      split
      · rename_i hspace
        rw [List.dropWhile_cons_of_pos (by simpa using hspace), ← hslice, Nat.add_right_comm start, Nat.add_assoc]
        rw [Nat.add_right_comm, Nat.add_assoc] at hstop hreads
        exact ⟨Nat.le_of_succ_le hle, hstop, rfl, List.forall_mem_append.mpr ⟨hhere, hreads⟩⟩
      · rename_i hspace
        rw [List.dropWhile_cons_of_neg (by simpa using hspace), ← slice_step]
        exact ⟨Nat.le_refl _, Nat.le_add_right _ _, rfl, hhere⟩

variable (mem) in
theorem separatorFrom_spec (fuel start : Nat) :
    let out := separatorFrom mem fuel start
    start ≤ out.value ∧ out.value ≤ start + fuel ∧ (0 < fuel → start < out.value) ∧
      slice mem out.value (start + fuel) = ((slice mem start (start + fuel)).dropWhile fun c => !isSeparator c).drop 1 ∧
      ∀ i ∈ out.text, i < start + fuel := by
  induction fuel generalizing start with
  | zero =>
      refine ⟨Nat.le_refl _, Nat.le_refl _, fun h => absurd h (Nat.lt_irrefl 0), ?_, List.forall_mem_nil _⟩
      simp [separatorFrom, slice_self]
  | succ fuel ih =>
      obtain ⟨hle, hstop, -, hslice, hreads⟩ := ih (start + 1)
      have hhere : ∀ i ∈ [start], i < start + (fuel + 1) := List.forall_mem_singleton.mpr (by omega)
      dsimp only
      rw [separatorFrom, slice_step]
      split
      · rename_i hsep
        rw [List.dropWhile_cons_of_neg (by simpa using hsep), List.drop_succ_cons, List.drop_zero,
          Nat.add_right_comm start, Nat.add_assoc]
        exact ⟨Nat.le_succ _, Nat.add_le_add_left (Nat.succ_pos fuel) start, fun _ => Nat.lt_succ_self _, rfl, hhere⟩
      · rename_i hsep
        rw [List.dropWhile_cons_of_pos (by simpa using hsep), ← hslice, Nat.add_right_comm start, Nat.add_assoc]
        rw [Nat.add_right_comm, Nat.add_assoc] at hstop hreads
        exact ⟨Nat.le_of_succ_le hle, hstop, fun _ => hle, rfl, List.forall_mem_append.mpr ⟨hhere, hreads⟩⟩

-- The text at a position where the loop goes on
def LeadsTo (mem : Nat → UInt8) (size start : Nat) (rest : Bytes) (turn : ItemTurn) : Prop :=
  ∃ p, turn = .next p ∧ start ≤ p ∧ p ≤ size ∧ (start < size → start < p) ∧ slice mem p size = rest

variable (mem) in
theorem skipItem_spec (start : Nat) (hle : start ≤ size) :
    let out := skipItem mem size start
    LeadsTo mem size start (nextItem (slice mem start size)) out.value ∧ ∀ i ∈ out.text, i ≤ size := by
  obtain ⟨hsep, hsepStop, hmore, hsepSlice, hsepReads⟩ := separatorFrom_spec mem (size - start) start
  rw [Nat.add_sub_of_le hle] at hsepStop hsepSlice hsepReads
  dsimp only
  unfold skipItem nextItem
  generalize separatorFrom mem (size - start) start = separator at hsep hsepStop hmore hsepSlice hsepReads ⊢
  obtain ⟨hspaces, hspacesStop, hspacesSlice, hspacesReads⟩ :=
    spacesFrom_spec mem (size - separator.value) separator.value
  rw [Nat.add_sub_of_le hsepStop] at hspacesStop hspacesSlice hspacesReads
  refine ⟨⟨_, rfl, Nat.le_trans hsep hspaces, hspacesStop, fun hlt => ?_, ?_⟩,
    List.forall_mem_append.mpr ⟨fun i hi => Nat.le_of_lt (hsepReads i hi), fun i hi => Nat.le_of_lt (hspacesReads i hi)⟩⟩
  · exact Nat.lt_of_lt_of_le (hmore (Nat.sub_pos_of_lt hlt)) hspaces
  · rw [hspacesSlice, hsepSlice]

theorem dropWhile_spaces (rest : Bytes) :
    ((rest.dropWhile (· = 32)).dropWhile fun c => !isSeparator c) = rest.dropWhile fun c => !isSeparator c := by
  induction rest with
  | nil => rfl
  | cons c rest ih =>
      by_cases hc : c = 32
      · have hsep : (!isSeparator c) = true := by
          rw [hc]
          rfl
        rw [List.dropWhile_cons_of_pos (by simpa using hc), ih, List.dropWhile_cons_of_pos (p := fun c => !isSeparator c) hsep]
      · rw [List.dropWhile_cons_of_neg (by simpa using hc)]

theorem nextItem_spaces (rest : Bytes) : nextItem (rest.dropWhile (· = 32)) = nextItem rest := by
  rw [nextItem, dropWhile_spaces, nextItem]

theorem nextItem_cons_sep {c : UInt8} (rest : Bytes) (hc : isSeparator c = true) :
    nextItem (c :: rest) = rest.dropWhile (· = 32) := by
  rw [nextItem, List.dropWhile_cons_of_neg (by simpa using hc)]
  rfl

theorem nextItem_cons {c : UInt8} (rest : Bytes) (hc : isSeparator c = false) : nextItem (c :: rest) = nextItem rest := by
  rw [nextItem, List.dropWhile_cons_of_pos (by simpa using hc), nextItem]

theorem LeadsTo.from {rest : Bytes} {turn : ItemTurn} (h : LeadsTo mem size s2 rest turn) (hlt : s1 < s2) :
    LeadsTo mem size s1 rest turn := by
  obtain ⟨p, hp, hle, hsize, -, hrest⟩ := h
  exact ⟨p, hp, by omega, hsize, fun _ => by omega, hrest⟩

variable (mem) in
theorem bareTurn_spec (start : Nat) (hle : start ≤ size) :
    let out := bareTurn mem size start
    let rest := slice mem start size
    (if rest = [] ∨ rest.head? = some 44 then out.value = .found none
      else LeadsTo mem size start (nextItem rest) out.value) ∧ ∀ i ∈ out.text, i ≤ size := by
  dsimp only
  rw [bareTurn]
  obtain rfl | hlt := Nat.eq_or_lt_of_le hle
  · rw [slice_self, if_pos (.inl rfl), if_pos rfl]
    exact ⟨rfl, List.forall_mem_nil _⟩
  · have hhere : ∀ i ∈ [start], i ≤ size := List.forall_mem_singleton.mpr hle
    obtain ⟨hleads, hreads⟩ := skipItem_spec mem start hle
    rw [slice_cons hlt] at hleads ⊢
    rw [if_neg (Nat.ne_of_lt hlt)]
    by_cases hcomma : mem start = 44
    · rw [if_pos (.inr (congrArg some hcomma)), if_pos hcomma]
      exact ⟨rfl, hhere⟩
    · rw [if_neg (by simpa using hcomma), if_neg hcomma]
      exact ⟨hleads, List.forall_mem_append.mpr ⟨hhere, hreads⟩⟩

-- A separator in place of the '=' is passed, and then the text up to the next one too.
variable (mem) in
theorem valueTurn_spec (start : Nat) (hle : start ≤ size) :
    let out := valueTurn mem size start
    let rest := slice mem start size
    (if rest.head? = some 61 then ∃ at' n, out.value = .found (some (at', n)) ∧ at' ≤ size ∧
        slice mem at' size = (rest.drop 1).dropWhile (· = 32) ∧
        n = (((rest.drop 1).dropWhile (· = 32)).takeWhile (· ≠ 59)).length
      else LeadsTo mem size start (nextItem (rest.drop 1)) out.value) ∧ ∀ i ∈ out.text, i ≤ size := by
  dsimp only
  rw [valueTurn]
  obtain rfl | hlt := Nat.eq_or_lt_of_le hle
  · obtain ⟨hleads, hreads⟩ := skipItem_spec mem start hle
    rw [slice_self] at hleads ⊢
    rw [if_neg (by simp), if_pos rfl]
    exact ⟨hleads, hreads⟩
  · have hhere : ∀ i ∈ [start], i ≤ size := List.forall_mem_singleton.mpr hle
    rw [slice_cons hlt, if_neg (Nat.ne_of_lt hlt), List.head?_cons, List.drop_succ_cons, List.drop_zero]
    by_cases hequals : mem start = 61
    · obtain ⟨hspaces, hstop, hslice, hreads⟩ := spacesFrom_spec mem (size - (start + 1)) (start + 1)
      rw [Nat.add_sub_of_le hlt] at hstop hslice hreads
      rw [if_pos (congrArg some hequals), if_neg (not_not.mpr hequals)]
      dsimp only
      generalize spacesFrom mem (size - (start + 1)) (start + 1) = spaces at hspaces hstop hslice hreads ⊢
      have hlast : (strlchr mem 59 (size - spaces.value) spaces.value).value.getD size =
          spaces.value + ((slice mem spaces.value size).takeWhile (· ≠ 59)).length := strlchr_end rfl hstop
      have hlastReads := (strlchr_first mem 59 (size - spaces.value) spaces.value).2
      rw [Nat.add_sub_of_le hstop] at hlastReads
      refine ⟨⟨spaces.value, _, rfl, hstop, hslice, ?_⟩, List.forall_mem_cons.mpr ⟨hle, List.forall_mem_append.mpr ⟨?_, ?_⟩⟩⟩
      · rw [hlast, Nat.add_sub_cancel_left, hslice]
      · exact fun i hi => Nat.le_of_lt (hreads i hi)
      · exact fun i hi => Nat.le_of_lt (hlastReads i hi)
    · obtain ⟨hleads, hreads⟩ := skipItem_spec mem (start + 1) hlt
      rw [if_neg (by simpa using hequals), if_pos hequals]
      exact ⟨hleads.from (Nat.lt_succ_self start), List.forall_mem_append.mpr ⟨hhere, hreads⟩⟩

-- An item that begins with the name, and what follows the name and the spaces
structure Begins (name rest tail : Bytes) : Prop where
  after : afterName name (itemOf rest) = some (itemOf tail)
  ends : (rest.dropWhile fun c => !isSeparator c) = tail.dropWhile fun c => !isSeparator c
  value : valueRest name rest = (tail.drop 1).dropWhile (· = 32)

theorem takeWhile_spaces (more : Bytes) : (itemOf more).dropWhile (· = 32) = itemOf (more.dropWhile (· = 32)) := by
  unfold itemOf
  induction more with
  | nil => rfl
  | cons c more ih =>
      by_cases hc : c = 32
      · have hsep : (!isSeparator c) = true := by
          rw [hc]
          rfl
        rw [List.takeWhile_cons_of_pos (p := fun c => !isSeparator c) hsep, List.dropWhile_cons_of_pos (by simpa using hc),
          List.dropWhile_cons_of_pos (by simpa using hc), ih]
      · rw [List.dropWhile_cons_of_neg (by simpa using hc), List.takeWhile_cons]
        split
        · exact List.dropWhile_cons_of_neg (by simpa using hc)
        · rfl

theorem begins_of_equal {name rest : Bytes} (hname : ∀ c ∈ name, tokenChar c = true)
    (h : (rest.take name.length).map tolower = name.map tolower) :
    Begins name rest ((rest.drop name.length).dropWhile (· = 32)) := by
  have hword : ∀ c ∈ rest.take name.length, (!isSeparator c) = true := by
    intro c hc
    have hlower : tolower c ∈ name.map tolower := h ▸ List.mem_map_of_mem hc
    obtain ⟨d, hd, heq⟩ := List.mem_map.mp hlower
    rw [(token_lower (hname d hd) heq.symm).2.2.2]
    rfl
  have hlength : (rest.take name.length).length = name.length := by
    simpa only [List.length_map] using congrArg List.length h
  have hsplit : rest = rest.take name.length ++ rest.drop name.length := (List.take_append_drop _ _).symm
  have hitem : itemOf rest = rest.take name.length ++ itemOf (rest.drop name.length) := by
    unfold itemOf
    conv_lhs => rw [hsplit]
    exact List.takeWhile_append_of_pos hword
  constructor
  · rw [afterName, hitem, List.take_left' hlength, List.drop_left' hlength, if_pos h, takeWhile_spaces]
  · rw [dropWhile_spaces]
    conv_lhs => rw [hsplit]
    exact List.dropWhile_append_of_pos hword
  · rfl

theorem afterName_of_not {name rest : Bytes} (h : (rest.take name.length).map tolower ≠ name.map tolower) :
    afterName name (itemOf rest) = none := by
  rw [afterName, if_neg]
  intro heq
  obtain ⟨more, hmore⟩ : itemOf rest <+: rest := List.takeWhile_prefix _
  have hlength : name.length ≤ (itemOf rest).length := by
    have := congrArg List.length heq
    simp only [List.length_map, List.length_take] at this
    omega
  rw [← hmore, List.take_append_of_le_length hlength] at h
  exact h heq

-- The kind of an item goes by what follows the name and the spaces.
theorem Begins.kinds {name rest tail : Bytes} (h : Begins name rest tail) :
    (valueItem name rest = true ↔ tail.head? = some 61) ∧
      (bareItem name rest = true ↔ tail = [] ∨ tail.head? = some 44) ∧
      (valueless name rest = true ↔ ∃ c more, tail = c :: more ∧ isSeparator c = true) ∧ nextItem rest = nextItem tail := by
  rw [valueItem, bareItem, valueless, nextItem, nextItem, h.after, h.ends]
  cases tail with
  | nil => simp [itemOf]
  | cons c more =>
      cases hc : isSeparator c with
      | true =>
          have hitem : itemOf (c :: more) = [] := List.takeWhile_cons_of_neg (by simp [hc])
          have hdrop : ((c :: more).dropWhile fun c => !isSeparator c) = c :: more :=
            List.dropWhile_cons_of_neg (by simp [hc])
          have hmark : c = 59 ∨ c = 44 := by simpa [isSeparator] using hc
          rw [hitem, hdrop]
          obtain rfl | rfl := hmark
          · simp [isSeparator]
          · simp [isSeparator]
      | false =>
          have hitem : itemOf (c :: more) = c :: itemOf more := List.takeWhile_cons_of_pos (by simp [hc])
          have hmark : c ≠ 59 ∧ c ≠ 44 := by simpa [isSeparator] using hc
          rw [hitem]
          simp [hmark, hc]

theorem kinds_of_not {name rest : Bytes} (h : (rest.take name.length).map tolower ≠ name.map tolower) :
    valueItem name rest = false ∧ bareItem name rest = false ∧ valueless name rest = false := by
  rw [valueItem, bareItem, valueless, afterName_of_not h]
  exact ⟨rfl, rfl, rfl⟩

-- An item whose separator the test for '=' passes hides the next one.
def hides (wanted : Bool) (name rest : Bytes) : Bool := wanted && valueless name rest

theorem Begins.passed {name rest tail : Bytes} (h : Begins name rest tail) :
    nextItem (tail.drop 1) = if hides true name rest then nextItem (nextItem rest) else nextItem rest := by
  obtain ⟨-, -, hless, hnext⟩ := h.kinds
  rw [hides, Bool.true_and, hnext]
  cases tail with
  | nil =>
      rw [if_neg (fun h => by obtain ⟨c, more, hnil, -⟩ := hless.mp h; cases hnil)]
      rfl
  | cons c more =>
      rw [List.drop_succ_cons, List.drop_zero]
      cases hc : isSeparator c with
      | true => rw [if_pos (hless.mpr ⟨c, more, rfl, hc⟩), nextItem_cons_sep more hc, nextItem_spaces]
      | false =>
          have hnot : ¬valueless name rest = true := by
            intro h
            obtain ⟨d, more', heq, hd⟩ := hless.mp h
            obtain ⟨rfl, -⟩ := List.cons.inj heq
            exact absurd (hc.symm.trans hd) Bool.false_ne_true
          rw [if_neg hnot, nextItem_cons more hc]

theorem itemTurn_spec (h : HeaderValue) (wanted : Bool) (htoken : ∀ c ∈ slice nameMem 0 len, tokenChar c = true)
    (hpos : 0 < len) (hle : start ≤ h.size) :
    let turn := itemTurn h.mem nameMem wanted h.size len start
    let rest := slice h.mem start h.size
    let name := slice nameMem 0 len
    (if wantedItem wanted name rest then ∃ value, turn.value = .found value ∧ ValueOf h name rest wanted value
      else LeadsTo h.mem h.size start (if hides wanted name rest then nextItem (nextItem rest) else nextItem rest)
        turn.value) ∧ ∀ i ∈ turn.text, i ≤ h.size := by
  have hlen : (slice nameMem 0 len).length = len := slice_length nameMem 0 len
  have hclean : ∀ i < len, tolower (nameMem (0 + i)) ≠ 0 := by
    intro i hi hzero
    have hmem : nameMem (0 + i) ∈ slice nameMem 0 len := List.mem_map_of_mem (List.mem_range.mpr hi)
    exact (token_lower (htoken _ hmem) (hzero.symm ▸ rfl : tolower 0 = tolower (nameMem (0 + i)))).1 rfl
  obtain ⟨hcompare, hreads⟩ := compareFrom_suffix h.terminated hclean hle
  rw [Nat.zero_add] at hcompare
  dsimp only
  rw [itemTurn]
  generalize compareFrom h.mem nameMem len start 0 = compared at hcompare hreads ⊢
  generalize slice nameMem 0 len = name at htoken hlen hcompare ⊢
  dsimp only
  generalize hrest : slice h.mem start h.size = rest at hcompare ⊢
  by_cases hequal : (rest.take len).map tolower = name.map tolower
  · rw [if_pos (hcompare.mpr hequal)]
    have hroom : start + len ≤ h.size := by
      have hlength := congrArg List.length hequal
      rw [← hrest] at hlength
      simp only [List.length_map, List.length_take, slice_length, hlen] at hlength
      omega
    rw [← hlen] at hequal
    have hbegins := begins_of_equal htoken hequal
    rw [hlen] at hbegins
    obtain ⟨hspaces, hstop, hslice, hspacesReads⟩ := spacesFrom_spec h.mem (h.size - (start + len)) (start + len)
    rw [Nat.add_sub_of_le hroom] at hstop hslice hspacesReads
    have hdrop : slice h.mem (start + len) h.size = rest.drop len := by
      rw [← hrest, slice_append (Nat.le_add_right start len) hroom]
      exact (List.drop_left' (by rw [slice_length, Nat.add_sub_cancel_left])).symm
    rw [hdrop] at hslice
    rw [← hslice] at hbegins
    generalize spacesFrom h.mem (h.size - (start + len)) (start + len) = spaces at hspaces hstop hslice hspacesReads hbegins ⊢
    obtain ⟨hvalue, hbare, hless, hnext⟩ := hbegins.kinds
    have hspacesLe : ∀ i ∈ spaces.text, i ≤ h.size := fun i hi => Nat.le_of_lt (hspacesReads i hi)
    have hmore : start < spaces.value := by omega
    cases wanted with
    | false =>
        obtain ⟨hturn, hturnReads⟩ := bareTurn_spec h.mem spaces.value hstop
        refine ⟨?_, List.forall_mem_append.mpr ⟨hreads, List.forall_mem_append.mpr ⟨hspacesLe, hturnReads⟩⟩⟩
        show if bareItem name rest = true then _ else _
        split
        · rename_i hitem
          rw [if_pos (hbare.mp hitem)] at hturn
          exact ⟨none, hturn, rfl⟩
        · rename_i hitem
          rw [if_neg (fun h => hitem (hbare.mpr h)), ← hnext] at hturn
          exact hturn.from hmore
    | true =>
        obtain ⟨hturn, hturnReads⟩ := valueTurn_spec h.mem spaces.value hstop
        refine ⟨?_, List.forall_mem_append.mpr ⟨hreads, List.forall_mem_append.mpr ⟨hspacesLe, hturnReads⟩⟩⟩
        show if valueItem name rest = true then _ else _
        split
        · rename_i hitem
          rw [if_pos (hvalue.mp hitem), ← hbegins.value] at hturn
          obtain ⟨at', n, hfound, hspec⟩ := hturn
          exact ⟨some (at', n), hfound, at', n, rfl, hspec⟩
        · rename_i hitem
          rw [if_neg (fun h => hitem (hvalue.mpr h)), hbegins.passed] at hturn
          exact hturn.from hmore
  · rw [if_neg (fun h => hequal (hcompare.mp h))]
    rw [← hlen] at hequal
    obtain ⟨hvalue, hbare, hless⟩ := kinds_of_not hequal
    obtain ⟨hleads, hskip⟩ := skipItem_spec h.mem start hle
    rw [hrest] at hleads
    have hwanted : wantedItem wanted name rest = false := by
      cases wanted with
      | true => exact hvalue
      | false => exact hbare
    rw [hwanted, hides, hless, Bool.and_false]
    exact ⟨hleads, List.forall_mem_append.mpr ⟨hreads, hskip⟩⟩

theorem items_cons {rest : Bytes} (hne : rest ≠ []) : items rest = rest :: items (nextItem rest) := by
  cases rest with
  | nil => exact absurd rfl hne
  | cons c rest => rw [items]

theorem items_nil : items [] = [] := by rw [items]

-- The item behind one that hides it is not tested, and hides none.
theorem visit_hidden (p q : Bytes → Bool) (rest : Bytes) :
    visit p q true (items rest) = visit p q false (items (nextItem rest)) := by
  by_cases hne : rest = []
  · have hnext : nextItem rest = [] := by
      rw [hne]
      rfl
    rw [hnext, hne, items_nil]
    rfl
  · rw [items_cons hne, visit, Bool.not_true, Bool.and_false, Bool.and_false, if_neg Bool.false_ne_true]

-- The loop goes over the items as a search does in which some of them hide the next one.
theorem itemLoop_spec (h : HeaderValue) (wanted : Bool) (htoken : ∀ c ∈ slice nameMem 0 len, tokenChar c = true)
    (hpos : 0 < len) (fuel start : Nat) (hle : start ≤ h.size) (hfuel : h.size ≤ start + fuel) :
    let out := itemLoop h.mem nameMem wanted h.size len fuel start
    let name := slice nameMem 0 len
    (match visit (wantedItem wanted name) (hides wanted name) false (items (slice h.mem start h.size)) with
      | some rest => ∃ value, out.value = some value ∧ ValueOf h name rest wanted value
      | none => out.value = none) ∧ ∀ i ∈ out.text, i ≤ h.size := by
  induction fuel generalizing start with
  | zero =>
      obtain rfl : start = h.size := by omega
      rw [slice_self, items_nil]
      exact ⟨rfl, List.forall_mem_nil _⟩
  | succ fuel ih =>
      dsimp only
      rw [itemLoop]
      obtain rfl | hlt := Nat.eq_or_lt_of_le hle
      · rw [slice_self, items_nil, if_pos (Nat.le_refl _)]
        exact ⟨rfl, List.forall_mem_nil _⟩
      · obtain ⟨hturn, hreads⟩ := itemTurn_spec h wanted htoken hpos hle
        have hne : slice h.mem start h.size ≠ [] := by
          rw [slice_cons hlt]
          exact List.cons_ne_nil _ _
        rw [if_neg (Nat.not_le.mpr hlt), items_cons hne, visit, Bool.not_false, Bool.and_true, Bool.and_true]
        generalize itemTurn h.mem nameMem wanted h.size len start = turn at hturn hreads ⊢
        generalize slice h.mem start h.size = rest at hturn ⊢
        dsimp only
        by_cases hitem : wantedItem wanted (slice nameMem 0 len) rest = true
        · rw [if_pos hitem] at hturn ⊢
          obtain ⟨value, hfound, hvalue⟩ := hturn
          rw [hfound]
          exact ⟨⟨value, rfl, hvalue⟩, hreads⟩
        · rw [if_neg hitem] at hturn ⊢
          obtain ⟨p, hnext, -, hsize, hmore, hslice⟩ := hturn
          obtain ⟨hrest, hrestReads⟩ := ih p hsize (by have := hmore hlt; omega)
          rw [hnext]
          refine ⟨?_, List.forall_mem_append.mpr ⟨hreads, hrestReads⟩⟩
          cases hhides : hides wanted (slice nameMem 0 len) rest with
          | true =>
              rw [hhides, if_pos rfl] at hslice
              rwa [visit_hidden, ← hslice]
          | false =>
              rw [hhides, if_neg Bool.false_ne_true] at hslice
              rwa [← hslice]

theorem items_length {text rest : Bytes} (h : rest ∈ items text) : rest.length ≤ text.length := by
  induction text using items.induct with
  | case1 =>
      rw [items_nil] at h
      cases h
  | case2 c text ih =>
      rw [items, List.mem_cons] at h
      obtain rfl | h := h
      · exact Nat.le_refl _
      · exact Nat.le_trans (ih h) (Nat.le_of_lt (nextItem_length c text))

theorem items_nodup (text : Bytes) : (items text).Nodup := by
  induction text using items.induct with
  | case1 =>
      rw [items_nil]
      exact List.nodup_nil
  | case2 c text ih =>
      rw [items, List.nodup_cons]
      refine ⟨fun h => ?_, ih⟩
      exact absurd (items_length h) (Nat.not_le.mpr (nextItem_length c text))

theorem items_split {text rest : Bytes} {before after : List Bytes} (h : items text = before ++ rest :: after) :
    after = items (nextItem rest) := by
  induction before generalizing text with
  | nil =>
      have hne : text ≠ [] := by
        rintro rfl
        rw [items_nil] at h
        cases h
      rw [items_cons hne, List.nil_append, List.cons.injEq] at h
      rw [← h.1, h.2]
  | cons r before ih =>
      have hne : text ≠ [] := by
        rintro rfl
        rw [items_nil] at h
        cases h
      rw [items_cons hne, List.cons_append, List.cons.injEq] at h
      exact ih h.2

theorem visit_items (p q : Bytes → Bool) (text : Bytes) :
    visit p q false (items text) = (items text).find? p ↔
      (items text).find? p = none ∨ Even (trailing q ((items text).takeWhile fun rest => !p rest)) := by
  have h := visit_eq_find_iff (p := p) (q := q) [] (items text) (items_nodup text)
  have heven : Even (trailing q []) := Even.zero
  rwa [List.nil_append, decide_eq_false (not_not.mpr heven)] at h

theorem equal_of_wanted {wanted : Bool} {name rest : Bytes} (h : wantedItem wanted name rest = true) :
    (rest.take name.length).map tolower = name.map tolower := by
  by_contra hne
  obtain ⟨hvalue, hbare, -⟩ := kinds_of_not hne
  cases wanted with
  | true => exact absurd (hvalue.symm.trans h) Bool.false_ne_true
  | false => exact absurd (hbare.symm.trans h) Bool.false_ne_true

theorem wanted_length {wanted : Bool} {name rest : Bytes} (h : wantedItem wanted name rest = true) :
    name.length ≤ rest.length := by
  have hlength := congrArg List.length (equal_of_wanted h)
  simp only [List.length_map, List.length_take] at hlength
  omega

-- The values of two items are at different places.
theorem valueRest_longer {name rest rest' : Bytes} (hname : ∀ c ∈ name, tokenChar c = true)
    (h : valueItem name rest = true) (hafter : rest' ∈ items (nextItem rest)) :
    (valueRest name rest').length < (valueRest name rest).length := by
  have hwanted : wantedItem true name rest = true := h
  have hbegins := begins_of_equal hname (equal_of_wanted hwanted)
  obtain ⟨hvalue, -, -, hnext⟩ := hbegins.kinds
  have hrest := hbegins.value
  obtain ⟨more, hmore⟩ := List.head?_eq_some_iff.mp (hvalue.mp h)
  have hsame : nextItem rest = nextItem (valueRest name rest) := by
    rw [hnext, hrest, hmore, nextItem_cons more (by decide), List.drop_succ_cons, List.drop_zero, nextItem_spaces]
  have hshort : (valueRest name rest').length ≤ rest'.length := by
    have hspaces := (List.dropWhile_suffix (l := ((rest'.drop name.length).dropWhile (· = 32)).drop 1)
      fun c : UInt8 => decide (c = 32)).length_le
    have hmark := (List.dropWhile_suffix (l := rest'.drop name.length) fun c : UInt8 => decide (c = 32)).length_le
    rw [valueRest]
    rw [List.length_drop] at hspaces hmark
    omega
  rw [hsame] at hafter
  cases hbytes : valueRest name rest with
  | nil =>
      rw [hbytes] at hafter
      change rest' ∈ items [] at hafter
      rw [items_nil] at hafter
      cases hafter
  | cons c bytes =>
      rw [hbytes] at hafter
      exact Nat.lt_of_le_of_lt (Nat.le_trans hshort (items_length hafter)) (nextItem_length c bytes)

theorem headerItems_spec (h : HeaderValue) (wanted : Bool) (htoken : ∀ c ∈ slice nameMem 0 len, tokenChar c = true)
    (hpos : 0 < len) :
    let out := headerItems nameMem wanted h len
    let name := slice nameMem 0 len
    (match visit (wantedItem wanted name) (hides wanted name) false (items h.text) with
      | some rest => ∃ value, out.value = some value ∧ ValueOf h name rest wanted value
      | none => out.value = none) ∧ ∀ i ∈ out.text, i ≤ h.size := by
  dsimp only
  rw [headerItems]
  by_cases hshort : h.size < len
  · rw [if_pos hshort]
    have hnone : visit (wantedItem wanted (slice nameMem 0 len)) (hides wanted (slice nameMem 0 len)) false
        (items h.text) = none := by
      refine Option.eq_none_iff_forall_ne_some.mpr fun rest hrest => ?_
      obtain ⟨hmem, hitem⟩ := mem_of_visit hrest
      have htext := items_length hmem
      have hname := wanted_length hitem
      rw [HeaderValue.text, slice_length] at htext
      rw [slice_length] at hname
      omega
    rw [hnone]
    exact ⟨rfl, List.forall_mem_nil _⟩
  · rw [if_neg hshort]
    exact itemLoop_spec h wanted htoken hpos h.size 0 (Nat.zero_le _) (Nat.le_add_left _ _)

-- What is returned for the headers from the index i on
theorem multiFrom_spec (wanted : Bool) (htoken : ∀ c ∈ slice nameMem 0 len, tokenChar c = true) (hpos : 0 < len)
    (headers : List HeaderValue) (i : Nat) :
    let out := multiFrom nameMem wanted len headers i
    let name := slice nameMem 0 len
    let search := fun h : HeaderValue => visit (wantedItem wanted name) (hides wanted name) false (items h.text)
    (∀ j value, out.1 = some (j, value) → ∃ k h rest, j = i + k ∧ headers[k]? = some h ∧ search h = some rest ∧
      ValueOf h name rest wanted value ∧ ∀ k' < k, ∀ h', headers[k']? = some h' → search h' = none) ∧
    (out.1 = none → ∀ h ∈ headers, search h = none) ∧
    ∀ j p, (j, p) ∈ out.2 → ∃ k h, j = i + k ∧ headers[k]? = some h ∧ p ≤ h.size := by
  induction headers generalizing i with
  | nil => exact ⟨nofun, fun _ => List.forall_mem_nil _, fun _ _ h => absurd h List.not_mem_nil⟩
  | cons h headers ih =>
      obtain ⟨hspec, hreads⟩ := headerItems_spec h wanted htoken hpos
      obtain ⟨hfound, hnone, hrest⟩ := ih (i + 1)
      dsimp only
      rw [multiFrom]
      dsimp only
      generalize headerItems nameMem wanted h len = items' at hspec hreads ⊢
      have hhere : ∀ j p, (j, p) ∈ items'.text.map (fun p => (i, p)) →
          ∃ k h', j = i + k ∧ (h :: headers)[k]? = some h' ∧ p ≤ h'.size := by
        intro j p hmem
        obtain ⟨p', hp, heq⟩ := List.mem_map.mp hmem
        obtain ⟨rfl, rfl⟩ := Prod.mk.inj heq
        exact ⟨0, h, rfl, rfl, hreads p' hp⟩
      cases hvisit : visit (wantedItem wanted (slice nameMem 0 len)) (hides wanted (slice nameMem 0 len)) false
          (items h.text) with
      | some rest =>
          rw [hvisit] at hspec
          obtain ⟨value, hvalue, hof⟩ := hspec
          rw [hvalue]
          refine ⟨?_, nofun, hhere⟩
          intro j value' heq
          obtain ⟨rfl, rfl⟩ := Prod.mk.inj (Option.some.inj heq)
          exact ⟨0, h, rest, rfl, rfl, hvisit, hof, fun k' hk => absurd hk (Nat.not_lt_zero k')⟩
      | none =>
          rw [hvisit] at hspec
          rw [hspec]
          refine ⟨?_, fun hout => List.forall_mem_cons.mpr ⟨hvisit, hnone hout⟩, ?_⟩
          · intro j value hout
            obtain ⟨k, h', rest, rfl, hget, hsearch, hof, hbefore⟩ := hfound j value hout
            refine ⟨k + 1, h', rest, by omega, hget, hsearch, hof, fun k' hk h'' hget' => ?_⟩
            cases k' with
            | zero => exact Option.some.inj hget' ▸ hvisit
            | succ k' => exact hbefore k' (Nat.lt_of_succ_lt_succ hk) h'' hget'
          · intro j p hmem
            obtain hmem | hmem := List.mem_append.mp hmem
            · exact hhere j p hmem
            · obtain ⟨k, h', rfl, hget, hle⟩ := hrest j p hmem
              exact ⟨k + 1, h', by omega, hget, hle⟩

-- In the first header with an item that has the value, an even number of items without one stand right before it.
def ClearBefore (name : Bytes) (headers : List HeaderValue) : Prop :=
  ∀ front h back, headers = front ++ h :: back → (∀ h' ∈ front, ∀ rest ∈ items h'.text, ¬valueItem name rest) →
    ∀ rest, (items h.text).find? (valueItem name) = some rest →
      Even (trailing (valueless name) ((items h.text).takeWhile fun rest => !valueItem name rest))

theorem visit_bare (p : Bytes → Bool) (name text : Bytes) :
    visit p (hides false name) false (items text) = (items text).find? p := by
  refine (visit_items p (hides false name) text).mpr (.inr ?_)
  have hnone : ∀ l : List Bytes, trailing (hides false name) l = 0 := by
    intro l
    have hfalse : hides false name = fun _ => false := funext fun _ => rfl
    rw [trailing, hfalse, List.takeWhile_eq_nil_iff.mpr fun _ => Bool.false_ne_true]
    rfl
  rw [hnone]
  exact Even.zero

theorem visit_clear {name : Bytes} {headers : List HeaderValue} (h : ClearBefore name headers) {k : Nat}
    {header : HeaderValue} (hget : headers[k]? = some header)
    (hbefore : ∀ k' < k, ∀ h', headers[k']? = some h' → ∀ rest ∈ items h'.text, ¬valueItem name rest = true) :
    visit (wantedItem true name) (hides true name) false (items header.text) =
      (items header.text).find? (wantedItem true name) := by
  refine (visit_items _ _ header.text).mpr ?_
  cases hfind : (items header.text).find? (wantedItem true name) with
  | none => exact .inl rfl
  | some rest =>
      obtain ⟨hlt, hat⟩ := List.getElem?_eq_some_iff.mp hget
      have hsplit : headers = headers.take k ++ header :: headers.drop (k + 1) := by
        rw [← hat, ← List.drop_eq_getElem_cons hlt, List.take_append_drop]
      refine .inr (h _ _ _ hsplit ?_ rest hfind)
      intro h' hmem
      obtain ⟨k', hk', heq⟩ := List.mem_take_iff_getElem.mp hmem
      exact hbefore k' (by omega) h' (heq ▸ List.getElem?_eq_getElem _)

theorem first_of_value {name text rest rest' : Bytes} {h : HeaderValue} {value : Option (Nat × Nat)}
    (hname : ∀ c ∈ name, tokenChar c = true) (hfind : (items text).find? (valueItem name) = some rest)
    (hmem : rest' ∈ items text) (hitem : valueItem name rest' = true) (hof : ValueOf h name rest true value)
    (hof' : ValueOf h name rest' true value) : rest' = rest := by
  obtain ⟨hp, before, after, hsplit, hbefore⟩ := List.find?_eq_some_iff_append.mp hfind
  obtain ⟨at', n, hvalue, -, hslice, -⟩ := hof
  obtain ⟨at'', n', hvalue', -, hslice', -⟩ := hof'
  obtain ⟨rfl, -⟩ := Prod.mk.inj (Option.some.inj (hvalue.symm.trans hvalue'))
  rw [hsplit, List.mem_append, List.mem_cons] at hmem
  obtain hmem | rfl | hmem := hmem
  · have := hbefore rest' hmem
    rw [hitem] at this
    cases this
  · rfl
  · rw [items_split hsplit] at hmem
    have hlonger := valueRest_longer hname hp hmem
    rw [← hslice, ← hslice'] at hlonger
    exact absurd hlonger (Nat.lt_irrefl _)

-- The test for '=' passes a separator, so that an item without a value hides the next one. With value == NULL nothing is
-- tested that way.
theorem parseMultiHeaderLines_right_iff (nameMem : Nat → UInt8) (wanted : Bool) (headers : List HeaderValue) (len : Nat)
    (hpos : 0 < len) (htoken : ∀ c ∈ slice nameMem 0 len, tokenChar c = true) :
    MultiRight wanted headers (slice nameMem 0 len) (parseMultiHeaderLines nameMem wanted headers len) ↔
      wanted = false ∨ ClearBefore (slice nameMem 0 len) headers := by
  obtain ⟨hfound, hnone, hreads⟩ := multiFrom_spec wanted htoken hpos headers 0
  rw [parseMultiHeaderLines]
  generalize multiFrom nameMem wanted len headers 0 = out at hfound hnone hreads ⊢
  generalize slice nameMem 0 len = name at htoken hfound hnone ⊢
  dsimp only at hfound hnone
  simp only [Nat.zero_add] at hfound hreads
  constructor
  · intro hright
    cases wanted with
    | false => exact .inl rfl
    | true =>
        refine .inr fun front h back heq hfront rest hfind => ?_
        have hget : headers[front.length]? = some h := by
          rw [heq, List.getElem?_append_right (Nat.le_refl _), Nat.sub_self]
          rfl
        have hmem := List.mem_of_find?_eq_some hfind
        have hitem : valueItem name rest = true := List.find?_some hfind
        suffices hvisit : visit (wantedItem true name) (hides true name) false (items h.text) =
            (items h.text).find? (wantedItem true name) by
          obtain hno | heven := (visit_items _ _ h.text).mp hvisit
          · exact absurd (hfind.symm.trans hno) nofun
          · exact heven
        cases hout : out.1 with
        | none => exact absurd hitem (hright.declined hout h (List.mem_of_getElem? hget) rest hmem)
        | some found =>
            obtain ⟨i, value⟩ := found
            obtain ⟨h', rest', hget', hfind', hof, hbefore⟩ := hright.found i value hout
            have hi : i = front.length := by
              by_contra hne
              obtain hlt | hlt := Nat.lt_or_gt_of_ne hne
              · rw [heq, List.getElem?_append_left hlt] at hget'
                exact hfront h' (List.mem_of_getElem? hget') rest' (List.mem_of_find?_eq_some hfind') (List.find?_some hfind')
              · exact hbefore front.length hlt h hget rest hmem hitem
            rw [hi, hget] at hget'
            obtain rfl := Option.some.inj hget'
            obtain ⟨k, h', rest'', rfl, hget'', hsearch, hof', -⟩ := hfound i value hout
            rw [hi, hget] at hget''
            obtain rfl := Option.some.inj hget''
            obtain ⟨hmem'', hitem''⟩ := mem_of_visit hsearch
            rw [hsearch, hfind', first_of_value htoken hfind' hmem'' hitem'' hof hof']
  · intro hclear
    -- Before the first header with an item that is looked for the loop does what the search does.
    have hagree : ∀ (k : Nat) (h : HeaderValue), headers[k]? = some h →
        (∀ k' < k, ∀ h' : HeaderValue, headers[k']? = some h' → ∀ rest ∈ items h'.text, ¬wantedItem wanted name rest = true) →
        visit (wantedItem wanted name) (hides wanted name) false (items h.text) =
          (items h.text).find? (wantedItem wanted name) := by
      intro k h hget hbefore
      cases wanted with
      | false => exact visit_bare _ name h.text
      | true => exact visit_clear (hclear.resolve_left nofun) hget hbefore
    have hnot : ∀ k : Nat, (∀ k' < k, ∀ h' : HeaderValue, headers[k']? = some h' →
        visit (wantedItem wanted name) (hides wanted name) false (items h'.text) = none) →
        ∀ k' < k, ∀ h' : HeaderValue, headers[k']? = some h' →
          ∀ rest ∈ items h'.text, ¬wantedItem wanted name rest = true := by
      intro k hsearch k'
      induction k' using Nat.strong_induction_on with
      | _ k' ih =>
          intro hk h' hget
          have hempty := hsearch k' hk h' hget
          rw [hagree k' h' hget fun k'' hk'' => ih k'' hk'' (Nat.lt_trans hk'' hk)] at hempty
          exact List.find?_eq_none.mp hempty
    refine ⟨?_, ?_, ?_⟩
    · intro i p hmem
      obtain ⟨k, h, rfl, hread⟩ := hreads i p hmem
      exact ⟨h, hread⟩
    · intro i value hout
      obtain ⟨k, h, rest, rfl, hget, hsearch, hof, hbefore⟩ := hfound i value hout
      have hfirst := hnot i hbefore
      rw [hagree i h hget hfirst] at hsearch
      exact ⟨h, rest, hget, hsearch, hof, hfirst⟩
    · intro hout h hmem
      obtain ⟨k, hk, heq⟩ := List.mem_iff_getElem.mp hmem
      have hall := hnone hout
      exact hnot headers.length (fun k' _ h' hget => hall h' (List.mem_of_getElem? hget)) k hk h
        (heq ▸ List.getElem?_eq_getElem hk)

-- A string as the value of a header
def headerValue (text : Bytes) (h : 0 ∉ text) : HeaderValue where
  mem i := text.getD i 0
  size := text.length
  terminated := by simp [List.getD]
  plain i hi hzero := by
    rw [List.getD_eq_getElem?_getD, List.getElem?_eq_getElem hi, Option.getD_some] at hzero
    exact h (hzero ▸ List.getElem_mem hi)

theorem parseMultiHeaderLines_right_iff_null :
    let headers := [headerValue (ngxString "no-cache=1") (by decide),
      headerValue (ngxString "private; No-Cache ,x") (by decide)]
    let nameMem : Nat → UInt8 := fun i => (ngxString "no-cache").getD i 0
    (parseMultiHeaderLines nameMem false headers 8).1 = some (1, none) ∧
      MultiRight false headers (slice nameMem 0 8) (parseMultiHeaderLines nameMem false headers 8) := by
  intro headers nameMem
  have hout : (parseMultiHeaderLines nameMem false headers 8).1 = some (1, none) := by decide
  have htoken : ∀ c ∈ slice nameMem 0 8, tokenChar c = true := by decide +kernel
  exact ⟨hout, (parseMultiHeaderLines_right_iff nameMem false headers 8 (by decide) htoken).mpr (.inl rfl)⟩

-- The value behind an item of the same name without one is not found.
theorem valueless_hides_value :
    let headers := [headerValue (ngxString "foo; foo=bar") (by decide +kernel)]
    let nameMem : Nat → UInt8 := fun i => (ngxString "foo").getD i 0
    (parseMultiHeaderLines nameMem true headers 3).1 = none ∧
      ¬MultiRight true headers (slice nameMem 0 3) (parseMultiHeaderLines nameMem true headers 3) := by
  intro headers nameMem
  have hout : (parseMultiHeaderLines nameMem true headers 3).1 = none := by decide +kernel
  refine ⟨hout, fun hright => ?_⟩
  have htext : ngxString "foo; foo=bar" ≠ [] := by decide +kernel
  have hnext : nextItem (ngxString "foo; foo=bar") = ngxString "foo=bar" := by decide +kernel
  have hmem : ngxString "foo=bar" ∈ items (ngxString "foo; foo=bar") := by
    rw [items_cons htext, hnext, items_cons (by decide +kernel)]
    exact List.mem_cons_of_mem _ List.mem_cons_self
  have hheader : (headerValue (ngxString "foo; foo=bar") (by decide +kernel)).text = ngxString "foo; foo=bar" := by
    decide +kernel
  have hitem : wantedItem true (slice nameMem 0 3) (ngxString "foo=bar") = true := by decide +kernel
  exact hright.declined hout _ List.mem_cons_self _ (hheader.symm ▸ hmem) hitem

end Items

end Nginx.HttpParse
