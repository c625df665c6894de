import Nginx.Core.Base64

namespace Nginx.AuthBasic

open Base64

-- NGX_HTTP_AUTH_BUF_SIZE
def bufSize : Nat := 2048

-- headers_in; failed is a user of length 0 whose data is not NULL, which an earlier call has left.
structure HeadersIn where
  failed : Bool
  authorization : Option Bytes

-- headers_in.user and headers_in.passwd: places in the decoded text, which a zero ends
structure User where
  data : Bytes
  len : Nat
  passwd : Bytes
  deriving DecidableEq

def User.name (user : User) : Bytes := user.data.take user.len

-- ngx_http_auth_basic_user, where none is NGX_DECLINED
def authBasicUser (h : HeadersIn) : Option User :=
  if h.failed then none
  else
    match h.authorization with
    | none => none
    | some value =>
        if value.length < 6 ∨ strncasecmp value (ngxString "Basic ") 6 ≠ some 0 then none
        else
          let encoded := (value.drop 6).dropWhile (· = 32)
          if encoded = [] then none
          else
            match decodeBase64 encoded with
            | none => none
            | some auth =>
                let len := (auth.takeWhile (· ≠ 58)).length
                if len = 0 ∨ len = auth.length then none else some ⟨auth ++ [0], len, auth.drop (len + 1)⟩

inductive State
  | login
  | passwd
  | skip
  deriving DecidableEq

structure Scan where
  state : State
  login : Nat
  passwd : Nat

-- One byte at buf[i]; none is the return from sw_passwd.
def scanByte (user : User) (s : Scan) (i : Nat) (ch : UInt8) : Option Scan :=
  match s.state with
  | .login =>
      if s.login = 0 ∧ (ch = 35 ∨ ch = 13) then some { s with state := .skip }
      else if s.login = 0 ∧ ch = 10 then some s
      -- The byte that differs may be the LF.
      else if ch ≠ user.data.getD s.login 0 then some { s with state := .skip }
      else if s.login = user.len then some ⟨.passwd, s.login + 1, i + 1⟩
      else some { s with login := s.login + 1 }
  | .passwd => if ch = 10 ∨ ch = 13 ∨ ch = 58 then none else some s
  | .skip => if ch = 10 then some { s with state := .login, login := 0 } else some s

-- for (i = left; i < left + n; i++); a return tells i and passwd.
def scan (user : User) (s : Scan) (i : Nat) : Bytes → Scan ⊕ (Nat × Nat)
  | [] => .inl s
  | ch :: piece =>
    match scanByte user s i ch with
    | some s => scan user s (i + 1) piece
    | none => .inr (i, s.passwd)

inductive Outcome
  | declined
  | error
  | internalServerError
  | forbidden
  -- ngx_http_auth_basic_set_realm: the answer is 401.
  | setRealm
  -- ngx_http_auth_basic_crypt_handler, with the string at passwd->data
  | crypt (passwd : Bytes)
  deriving DecidableEq

-- What a pointer to these bytes and a zero behind them is as a string
def cString (s : Bytes) : Bytes := s.takeWhile (· ≠ 0)

-- The loop of reads: buf is what left counts, and none is out of fuel. A read that is none is NGX_ERROR.
def readLoop (user : User) (read : Nat → Nat → Option Bytes) : Nat → Scan → Bytes → Nat → Option Outcome
  | 0, _, _, _ => none
  | fuel + 1, s, buf, offset =>
    match read (bufSize - buf.length) offset with
    | none => some .internalServerError
    | some [] => some (if s.state = .passwd then .crypt (cString (buf.drop s.passwd)) else .setRealm)
    | some piece =>
        match scan user s buf.length piece with
        | .inr (i, passwd) => some (.crypt (cString (((buf ++ piece).drop passwd).take (i - passwd))))
        | .inl s =>
            if s.state = .passwd then
              readLoop user read fuel { s with passwd := 0 } ((buf ++ piece).drop s.passwd) (offset + piece.length)
            else readLoop user read fuel s [] (offset + piece.length)

structure LocConf where
  realm : Bytes
  userFile : Bytes

inductive Opened
  | noent
  | failed
  | file (read : Nat → Nat → Option Bytes)

-- ngx_http_auth_basic_handler; passwd is that of the context, where there is one.
def handler (alcf : LocConf) (passwd : Option Bytes) (h : HeadersIn) (complexValue : Bytes → Option Bytes)
    (openFile : Bytes → Opened) (fuel : Nat) : Option Outcome :=
  if alcf.realm = [] ∨ alcf.userFile = [] then some .declined
  else
    match passwd with
    | some passwd => some (.crypt passwd)
    | none =>
        match authBasicUser h with
        | none => some .setRealm
        | some user =>
            match complexValue alcf.userFile with
            | none => some .error
            | some userFile =>
                match openFile userFile with
                | .noent => some .forbidden
                | .failed => some .internalServerError
                | .file read => readLoop user read fuel ⟨.login, 0, 0⟩ [] 0

-- ngx_read_file on a file: n bytes from the offset on, at most as many as asked for and as there are,
-- and none only where none are asked for or none are left
structure Reader (file : Bytes) where
  n : Nat → Nat → Nat
  le : ∀ size offset, n size offset ≤ min size (file.length - offset)
  pos : ∀ size offset, 0 < size → offset < file.length → 0 < n size offset

def Reader.read {file : Bytes} (r : Reader file) (size offset : Nat) : Option Bytes :=
  some ((file.drop offset).take (r.n size offset))

-- What the file says: its lines, and the text of a line that begins with "user:"
def lines : Bytes → List Bytes
  | [] => [[]]
  | c :: file =>
    if c = 10 then [] :: lines file
    else
      match lines file with
      | [] => [[c]]
      | line :: rest => (c :: line) :: rest

def begins (name line : Bytes) : Bool := (name ++ [58]).isPrefixOf line

def textEnd (c : UInt8) : Bool := c = 10 ∨ c = 13 ∨ c = 58

def text (name line : Bytes) : Bytes := (line.drop (name.length + 1)).takeWhile (!textEnd ·)

def expected (name file : Bytes) : Outcome :=
  match (lines file).find? (begins name) with
  | some line => .crypt (text name line)
  | none => .setRealm

-- A non-empty beginning of the user name and nothing else: its LF is read as a byte that differs.
def cutShort (name line : Bytes) : Bool := line ≠ [] ∧ line.isPrefixOf name

-- How many of these lines stand directly before the next one
def run (name : Bytes) (before : List Bytes) : Nat := (before.rtakeWhile (cutShort name)).length

-- The first line that begins with "user:" and stands behind an even number of them
def Chosen (name : Bytes) (ls : List Bytes) (line : Bytes) : Prop :=
  ∃ before after, ls = before ++ line :: after ∧ begins name line ∧ Even (run name before) ∧
    ∀ before' line' after', before = before' ++ line' :: after' → begins name line' → ¬Even (run name before')

-- The text is handed on as a string, which a zero ends.
def Findable (name file : Bytes) : Prop :=
  ∀ before line after, lines file = before ++ line :: after → begins name line →
    (∀ line' ∈ before, ¬begins name line') →
      0 ∉ text name line ∧
        (Even (run name before) ∨
          ∃ other, Chosen name after other ∧ cString ((text name other).take bufSize) = text name line)

-- The reading of a file without a buffer
inductive Reading
  | login (k : Nat)
  | skip
  | passwd (text : Bytes)

def loginTurn (user : User) (k : Nat) (ch : UInt8) : Reading :=
  if k = 0 ∧ (ch = 35 ∨ ch = 13) then .skip
  else if k = 0 ∧ ch = 10 then .login k
  else if ch ≠ user.data.getD k 0 then .skip
  else if k = user.len then .passwd []
  else .login (k + 1)

def answer (user : User) : Reading → Bytes → Outcome
  | .passwd text, [] => .crypt (cString text)
  | .login _, [] => .setRealm
  | .skip, [] => .setRealm
  | .login k, ch :: file => answer user (loginTurn user k ch) file
  | .skip, ch :: file => answer user (if ch = 10 then .login 0 else .skip) file
  | .passwd text, ch :: file =>
    -- A text that fills the buffer ends there.
    if text.length = bufSize ∨ textEnd ch then .crypt (cString text) else answer user (.passwd (text ++ [ch])) file

def reading (s : Scan) (buf : Bytes) : Reading :=
  match s.state with
  | .login => .login s.login
  | .passwd => .passwd (buf.drop s.passwd)
  | .skip => .skip

-- The password begins in the buffer.
def Inside (s : Scan) (buf : Bytes) : Prop := s.state = .passwd → s.passwd ≤ buf.length

variable {user : User} {s : Scan} {buf piece file : Bytes} {ch : UInt8}

theorem answer_full (h : buf.length = bufSize) (file : Bytes) :
    answer user (.passwd buf) file = .crypt (cString buf) := by
  cases file with
  | nil => rfl
  | cons ch file => rw [answer, if_pos (Or.inl h)]

theorem textEnd_iff : textEnd ch = true ↔ ch = 10 ∨ ch = 13 ∨ ch = 58 := by rw [textEnd, decide_eq_true_iff]

theorem scanByte_answer (user : User) (ch : UInt8) (hin : Inside s buf) (hroom : buf.length < bufSize) (file : Bytes) :
    (∃ s', scanByte user s buf.length ch = some s' ∧ Inside s' (buf ++ [ch]) ∧
      answer user (reading s buf) (ch :: file) = answer user (reading s' (buf ++ [ch])) file) ∨
    (scanByte user s buf.length ch = none ∧ s.passwd ≤ buf.length ∧
      answer user (reading s buf) (ch :: file) = .crypt (cString (buf.drop s.passwd))) := by
  obtain ⟨state, login, passwd⟩ := s
  cases state with
  | login =>
      left
      rw [scanByte, reading]
      simp only [answer, loginTurn]
      split
      · exact ⟨_, rfl, nofun, rfl⟩
      split
      · exact ⟨_, rfl, nofun, rfl⟩
      split
      · exact ⟨_, rfl, nofun, rfl⟩
      split
      · refine ⟨_, rfl, fun _ => ?_, ?_⟩
        · rw [List.length_append, List.length_singleton]
        · rw [reading]
          simp only
          rw [List.drop_eq_nil_of_le (by simp)]
      · exact ⟨_, rfl, nofun, rfl⟩
  | passwd =>
      have hle : passwd ≤ buf.length := hin rfl
      rw [scanByte, reading]
      simp only [answer]
      have hshort : (buf.drop passwd).length ≠ bufSize := by
        rw [List.length_drop]
        omega
      by_cases hend : ch = 10 ∨ ch = 13 ∨ ch = 58
      · right
        rw [if_pos hend, if_pos (Or.inr (textEnd_iff.mpr hend))]
        exact ⟨rfl, hle, rfl⟩
      · left
        rw [if_neg hend, if_neg (not_or.mpr ⟨hshort, fun h => hend (textEnd_iff.mp h)⟩)]
        refine ⟨_, rfl, fun _ => ?_, ?_⟩
        · rw [List.length_append]
          exact Nat.le_add_right_of_le hle
        · rw [reading, List.drop_append_of_le_length hle]
  | skip =>
      left
      rw [scanByte, reading]
      simp only [answer]
      by_cases hlf : ch = 10
      · rw [if_pos hlf, if_pos hlf]
        exact ⟨_, rfl, nofun, rfl⟩
      · rw [if_neg hlf, if_neg hlf]
        exact ⟨_, rfl, nofun, rfl⟩

theorem scan_answer (user : User) (hin : Inside s buf) (hroom : buf.length + piece.length ≤ bufSize) (file : Bytes) :
    (∃ s', scan user s buf.length piece = .inl s' ∧ Inside s' (buf ++ piece) ∧
      answer user (reading s buf) (piece ++ file) = answer user (reading s' (buf ++ piece)) file) ∨
    ∃ i passwd, scan user s buf.length piece = .inr (i, passwd) ∧
      answer user (reading s buf) (piece ++ file) =
        .crypt (cString (((buf ++ piece).drop passwd).take (i - passwd))) := by
  induction piece generalizing s buf with
  | nil =>
      left
      rw [List.append_nil]
      exact ⟨s, rfl, hin, rfl⟩
  | cons ch piece ih =>
      rw [List.length_cons] at hroom
      rw [scan, List.cons_append]
      obtain ⟨s', hbyte, hin', hanswer⟩ | ⟨hbyte, hle, hanswer⟩ :=
        scanByte_answer user ch hin (by omega) (piece ++ file)
      · rw [hbyte, hanswer]
        have hlength : (buf ++ [ch]).length = buf.length + 1 := by rw [List.length_append, List.length_singleton]
        have hrest := ih hin' (by omega)
        rwa [hlength, List.append_assoc, List.singleton_append] at hrest
      · right
        refine ⟨buf.length, s.passwd, by rw [hbyte], ?_⟩
        rw [hanswer, List.drop_append_of_le_length hle, List.take_left' (List.length_drop ..)]

-- The buffer between two reads holds the text of a password that has begun, and nothing else.
def Kept (s : Scan) (buf : Bytes) : Prop :=
  buf.length ≤ bufSize ∧ ((s.state = .passwd ∧ s.passwd = 0) ∨ (s.state ≠ .passwd ∧ buf = []))

theorem readLoop_end (hkept : Kept s buf) (file : Bytes) (h : buf.length = bufSize ∨ file = []) :
    (if s.state = .passwd then .crypt (cString (buf.drop s.passwd)) else .setRealm) =
      answer user (reading s buf) file := by
  obtain ⟨_, ⟨hstate, hpasswd⟩ | ⟨hstate, hbuf⟩⟩ := hkept
  · rw [if_pos hstate, reading, hstate, hpasswd, List.drop_zero]
    rcases h with hfull | hnil
    · rw [answer_full hfull]
    · rw [hnil]
      rfl
  · rw [if_neg hstate]
    subst hbuf
    have hnil : file = [] := h.resolve_left (by simp [bufSize])
    rw [hnil, reading]
    cases hs : s.state with
    | login => rfl
    | passwd => exact absurd hs hstate
    | skip => rfl

theorem readLoop_answer (r : Reader file) {fuel offset : Nat} (hkept : Kept s buf)
    (hfuel : file.length - offset < fuel) :
    readLoop user r.read fuel s buf offset = some (answer user (reading s buf) (file.drop offset)) := by
  induction fuel generalizing s buf offset with
  | zero => exact absurd hfuel (Nat.not_lt_zero _)
  | succ fuel ih =>
      have hle := r.le (bufSize - buf.length) offset
      have hpos := r.pos (bufSize - buf.length) offset
      rw [readLoop, Reader.read]
      cases hpiece : (file.drop offset).take (r.n (bufSize - buf.length) offset) with
      | nil =>
          simp only
          have hend : buf.length = bufSize ∨ file.drop offset = [] := by
            rcases List.take_eq_nil_iff.mp hpiece with hzero | hnil
            · by_cases hroom : 0 < bufSize - buf.length
              · right
                by_contra hne
                have hlt : offset < file.length := by
                  by_contra hge
                  exact hne (List.drop_eq_nil_of_le (by omega))
                have := hpos hroom hlt
                omega
              · left
                have := hkept.1
                omega
            · exact Or.inr hnil
          rw [readLoop_end hkept _ hend]
      | cons ch piece =>
          have hdrop : file.drop offset = (ch :: piece) ++ file.drop (offset + (ch :: piece).length) := by
            have htake := List.take_append_drop (r.n (bufSize - buf.length) offset) (file.drop offset)
            have hlength := congrArg List.length hpiece
            rw [List.length_take, List.length_drop, Nat.min_eq_left (by omega)] at hlength
            rw [hpiece, List.drop_drop, hlength] at htake
            exact htake.symm
          have hlength : (ch :: piece).length ≤ min (bufSize - buf.length) (file.length - offset) := by
            rw [← hpiece, List.length_take]
            omega
          have hin : Inside s buf := by
            rintro hstate
            rcases hkept.2 with ⟨_, hpasswd⟩ | ⟨hne, _⟩
            · omega
            · exact absurd hstate hne
          have hmore : file.length - (offset + (ch :: piece).length) < fuel := by
            rw [List.length_cons] at hlength ⊢
            omega
          have hfull := hkept.1
          rw [hdrop]
          simp only
          obtain ⟨s', hscan, hin', hanswer⟩ | ⟨i, passwd, hscan, hanswer⟩ :=
            scan_answer user hin (by omega : buf.length + (ch :: piece).length ≤ bufSize)
              (file.drop (offset + (ch :: piece).length))
          · rw [hscan, hanswer]
            simp only
            by_cases hstate : s'.state = .passwd
            · have hkept' : Kept { s' with passwd := 0 } ((buf ++ ch :: piece).drop s'.passwd) := by
                refine ⟨?_, Or.inl ⟨hstate, rfl⟩⟩
                rw [List.length_drop, List.length_append]
                omega
              rw [if_pos hstate, ih hkept' hmore, reading, reading, hstate]
              rfl
            · rw [if_neg hstate, ih ⟨Nat.zero_le _, Or.inr ⟨hstate, rfl⟩⟩ hmore]
              rw [reading, reading]
              cases hs : s'.state with
              | login => rfl
              | passwd => exact absurd hs hstate
              | skip => rfl
          · rw [hscan, hanswer]

-- The lines of a file, seen by the reading: a line that is cut short hides the next one.
def reached (name : Bytes) : Bool → List Bytes → Option Bytes
  | _, [] => none
  | true, _ :: ls => reached name false ls
  | false, line :: ls => if begins name line then some line else reached name (cutShort name line) ls

def outcome (name : Bytes) : Option Bytes → Outcome
  | some line => .crypt (cString ((text name line).take bufSize))
  | none => .setRealm

-- What stands behind the line: nothing, or the LF and the rest
def Tail (tail : Bytes) : Prop := tail = [] ∨ ∃ rest, tail = 10 :: rest

-- The text in front of ":" and what follows
structure Named (user : User) (name more : Bytes) : Prop where
  data : user.data = name ++ 58 :: more
  len : user.len = name.length

variable {name more front back line tail : Bytes}

theorem lines_of_not_mem (h : 10 ∉ line) : lines line = [line] := by
  induction line with
  | nil => rfl
  | cons c line ih =>
      rw [List.mem_cons, not_or] at h
      rw [lines, if_neg (Ne.symm h.1), ih h.2]

theorem lines_append (h : 10 ∉ line) (rest : Bytes) : lines (line ++ 10 :: rest) = line :: lines rest := by
  induction line with
  | nil => rfl
  | cons c line ih =>
      rw [List.mem_cons, not_or] at h
      rw [List.cons_append, lines, if_neg (Ne.symm h.1), ih h.2]

theorem answer_skip (user : User) (h : 10 ∉ line) (tail : Bytes) : answer user .skip (line ++ tail) = answer user .skip tail := by
  induction line with
  | nil => rfl
  | cons c line ih =>
      rw [List.mem_cons, not_or] at h
      rw [List.cons_append, answer, if_neg (Ne.symm h.1), ih h.2]

theorem answer_passwd (htail : Tail tail) (hfull : buf.length ≤ bufSize) (line : Bytes) :
    answer user (.passwd buf) (line ++ tail) =
      .crypt (cString ((buf ++ line.takeWhile (!textEnd ·)).take bufSize)) := by
  induction line generalizing buf with
  | nil =>
      rw [List.takeWhile_nil, List.append_nil, List.nil_append, List.take_of_length_le hfull]
      rcases htail with rfl | ⟨rest, rfl⟩
      · rfl
      · rw [answer, if_pos (Or.inr (textEnd_iff.mpr (Or.inl rfl)))]
  | cons ch line ih =>
      by_cases hroom : buf.length = bufSize
      · rw [answer_full hroom, List.take_left' hroom]
      · rw [List.cons_append, answer]
        by_cases hend : textEnd ch = true
        · rw [if_pos (Or.inr hend), List.takeWhile_cons_of_neg (by rw [hend]; decide), List.append_nil,
            List.take_of_length_le hfull]
        · have hpos : (!textEnd ch) = true := by rwa [Bool.not_eq_true', ← Bool.not_eq_true]
          have htake : (ch :: line).takeWhile (!textEnd ·) = ch :: line.takeWhile (!textEnd ·) :=
            List.takeWhile_cons_of_pos hpos
          have hfull' : (buf ++ [ch]).length ≤ bufSize := by
            rw [List.length_append, List.length_singleton]
            omega
          rw [if_neg (not_or.mpr ⟨hroom, hend⟩), ih hfull', htake, List.append_assoc,
            List.singleton_append]

theorem Named.getD_mid {c : UInt8} (h : Named user (front ++ c :: back) more) :
    user.data.getD front.length 0 = c ∧ front.length ≠ user.len := by
  constructor
  · rw [h.data, List.append_assoc, List.getD_append_right _ _ _ _ (Nat.le_refl _), Nat.sub_self]
    rfl
  · rw [h.len, List.length_append, List.length_cons]
    omega

theorem Named.getD_end (h : Named user name more) : user.data.getD name.length 0 = 58 := by
  rw [h.data, List.getD_append_right _ _ _ _ (Nat.le_refl _), Nat.sub_self]
  rfl

theorem loginTurn_later {k : Nat} (h : k ≠ 0) (ch : UInt8) :
    loginTurn user k ch =
      if ch ≠ user.data.getD k 0 then .skip else if k = user.len then .passwd [] else .login (k + 1) := by
  rw [loginTurn, if_neg (fun hk => h hk.1), if_neg (fun hk => h hk.1)]

-- The LF of a line that is cut short differs too, and the next line is skipped for it.
theorem answer_cutShort {k : Nat} (htail : Tail tail) (hk : k ≠ 0) (hch : user.data.getD k 0 ≠ 10) :
    answer user (.login k) tail = answer user .skip tail.tail := by
  rcases htail with rfl | ⟨rest, rfl⟩
  · rfl
  · rw [answer, loginTurn_later hk, if_pos (Ne.symm hch)]
    rfl

-- By induction on what is left of the name
theorem answer_login (htail : Tail tail) (h : Named user (front ++ back) more) (hfront : front ≠ [])
    (hname : 10 ∉ front ++ back) (hline : 10 ∉ line) :
    answer user (.login front.length) (line ++ tail) =
      if (back ++ [58]).isPrefixOf line then answer user (.passwd []) (line.drop (back.length + 1) ++ tail)
      else if line.isPrefixOf back then answer user .skip tail.tail
      else answer user .skip tail := by
  have hk : front.length ≠ 0 := fun hzero => hfront (List.length_eq_zero_iff.mp hzero)
  induction back generalizing front line with
  | nil =>
      rw [List.append_nil] at h
      cases line with
      | nil =>
          rw [List.nil_append, answer_cutShort htail hk (by rw [h.getD_end]; decide)]
          rfl
      | cons c line =>
          rw [List.mem_cons, not_or] at hline
          rw [List.cons_append, answer, loginTurn_later hk, h.getD_end, List.nil_append, List.isPrefixOf_cons_cons]
          by_cases hc : c = 58
          · rw [if_neg (not_not_intro hc), if_pos h.len.symm, hc]
            rfl
          · rw [if_pos hc, if_neg (by simp [Ne.symm hc]), answer_skip user hline.2]
            rfl
  | cons b back ih =>
      have hb : b ≠ 10 := fun hb => hname (hb ▸ List.mem_append_right front (List.mem_cons_self ..))
      obtain ⟨hget, hlen⟩ := h.getD_mid
      cases line with
      | nil =>
          rw [List.nil_append, answer_cutShort htail hk (by rwa [hget])]
          rfl
      | cons c line =>
          rw [List.mem_cons, not_or] at hline
          rw [List.cons_append, answer, loginTurn_later hk, hget, List.cons_append, List.isPrefixOf_cons_cons,
            List.isPrefixOf_cons_cons]
          by_cases hc : c = b
          · have happend : front ++ b :: back = (front ++ [b]) ++ back := by
              rw [List.append_assoc, List.singleton_append]
            have hlength : (front ++ [b]).length = front.length + 1 := by
              rw [List.length_append, List.length_singleton]
            have hrest := ih (happend ▸ h) (by simp) (happend ▸ hname) hline.2 (by rw [hlength]; omega)
            rw [hlength] at hrest
            rw [if_neg (not_not_intro hc), if_neg hlen, hrest, hc, BEq.rfl, Bool.true_and, Bool.true_and]
            rfl
          · rw [if_pos hc, if_neg (by simp [Ne.symm hc]), if_neg (by simp [hc]), answer_skip user hline.2]

-- A user name that the claim of a lookup is about; ngx_http_auth_basic_user lets no empty one through.
def UserName (name : Bytes) : Prop := 13 ∉ name ∧ 10 ∉ name ∧ name.head? ≠ some 35

instance (name : Bytes) : Decidable (UserName name) :=
  inferInstanceAs (Decidable (13 ∉ name ∧ 10 ∉ name ∧ name.head? ≠ some 35))

theorem answer_line (htail : Tail tail) (h : Named user name more) (hname : UserName name) (hne : name ≠ [])
    (hline : 10 ∉ line) :
    answer user (.login 0) (line ++ tail) =
      if begins name line then answer user (.passwd []) (line.drop (name.length + 1) ++ tail)
      else if cutShort name line then answer user .skip tail.tail
      else answer user .skip tail := by
  obtain ⟨hcr, hlf, hhash⟩ := hname
  obtain ⟨b, back, rfl⟩ := List.exists_cons_of_ne_nil hne
  have hmid := @Named.getD_mid user more [] back b h
  have hget : user.data.getD 0 0 = b := hmid.1
  have hlen : 0 ≠ user.len := hmid.2
  cases line with
  | nil =>
      rcases htail with rfl | ⟨rest, rfl⟩
      · rfl
      · rfl
  | cons c line =>
      rw [List.mem_cons, not_or] at hline
      have hcut : cutShort (b :: back) (c :: line) = (c :: line).isPrefixOf (b :: back) := by
        rw [cutShort, Bool.eq_iff_iff, decide_eq_true_iff]
        exact and_iff_right (List.cons_ne_nil c line)
      rw [begins, hcut, List.cons_append, List.cons_append, answer, loginTurn, List.isPrefixOf_cons_cons,
        List.isPrefixOf_cons_cons]
      by_cases hc : c = b
      · have hcomment : ¬(c = 35 ∨ c = 13) := by
          rintro (hc' | hc')
          · exact hhash (by rw [← hc, hc', List.head?_cons])
          · exact hcr (by rw [← hc', hc]; exact List.mem_cons_self ..)
        have hrest := @answer_login user more [b] back line tail htail h (by simp) hlf hline.2
        rw [if_neg (fun h => hcomment h.2), if_neg (fun h => hline.1 h.2.symm),
          if_neg (not_not_intro (hc.trans hget.symm)), if_neg hlen, hc, BEq.rfl, Bool.true_and, Bool.true_and]
        exact hrest
      · have hbc : (b == c) = false := beq_false_of_ne (Ne.symm hc)
        have hcb : (c == b) = false := beq_false_of_ne hc
        rw [hbc, hcb, Bool.false_and, Bool.false_and, if_neg Bool.false_ne_true, if_neg Bool.false_ne_true]
        split
        · exact answer_skip user hline.2 tail
        · rw [if_neg (fun h => hline.1 h.2.symm), if_pos (fun heq => hc (heq.trans hget)), answer_skip user hline.2]

-- By induction on the lines
theorem answer_lines (h : Named user name more) (hname : UserName name) (hne : name ≠ []) (hidden : Bool)
    (file : Bytes) :
    answer user (if hidden then .skip else .login 0) file = outcome name (reached name hidden (lines file)) := by
  have hfound : ∀ {line tail : Bytes}, Tail tail →
      answer user (.passwd []) (line.drop (name.length + 1) ++ tail) = outcome name (some line) := by
    intro line tail htail
    rw [answer_passwd htail (Nat.zero_le _), List.nil_append, outcome, text]
  induction hn : file.length using Nat.strong_induction_on generalizing file hidden with
  | _ n ih =>
      subst hn
      by_cases hlf : 10 ∈ file
      · obtain ⟨line, rest, rfl, hline⟩ := List.eq_append_cons_of_mem hlf
        have hshorter : rest.length < (line ++ 10 :: rest).length := by
          rw [List.length_append, List.length_cons]
          omega
        have hskip : answer user .skip (10 :: rest) = answer user (.login 0) rest := rfl
        have htail : Tail (10 :: rest) := Or.inr ⟨rest, rfl⟩
        rw [lines_append hline]
        cases hidden with
        | true =>
            rw [if_pos rfl, answer_skip user hline, hskip]
            exact ih _ hshorter false rest rfl
        | false =>
            rw [if_neg Bool.false_ne_true, answer_line htail h hname hne hline, reached]
            split
            · exact hfound htail
            · rw [← ih _ hshorter _ rest rfl, hskip, List.tail_cons]
              split
              · rfl
              · rfl
      · have htail : Tail [] := Or.inl rfl
        rw [lines_of_not_mem hlf]
        cases hidden with
        | true =>
            have hskip := answer_skip user hlf []
            rw [List.append_nil] at hskip
            rw [if_pos rfl, hskip]
            rfl
        | false =>
            have hanswer := answer_line htail h hname hne hlf
            rw [List.append_nil] at hanswer
            rw [if_neg Bool.false_ne_true, hanswer, reached]
            split
            · exact hfound htail
            · rw [reached, List.tail_nil, ite_self]
              rfl

-- Whether the line behind these is hidden
def hides (name : Bytes) : Bool → List Bytes → Bool
  | hidden, [] => hidden
  | true, _ :: ls => hides name false ls
  | false, line :: ls => hides name (cutShort name line) ls

variable {before after ls : List Bytes} {hidden : Bool}

theorem hides_cons (name : Bytes) (hidden : Bool) (line : Bytes) (ls : List Bytes) :
    hides name hidden (line :: ls) = hides name (!hidden && cutShort name line) ls := by
  cases hidden with
  | true => rfl
  | false => rfl

theorem hides_concat (name : Bytes) (hidden : Bool) (ls : List Bytes) (line : Bytes) :
    hides name hidden (ls ++ [line]) = (!hides name hidden ls && cutShort name line) := by
  induction ls generalizing hidden with
  | nil => rw [List.nil_append, hides_cons, hides, hides]
  | cons line' ls ih => rw [List.cons_append, hides_cons, hides_cons, ih]

theorem hides_iff (name : Bytes) (ls : List Bytes) : hides name false ls = true ↔ ¬Even (run name ls) := by
  induction ls using List.reverseRecOn with
  | nil => simp [hides, run]
  | append_singleton ls line ih =>
      rw [hides_concat, run, List.rtakeWhile_concat, Bool.and_eq_true, Bool.not_eq_true', ← Bool.not_eq_true, ih,
        not_not]
      by_cases hcut : cutShort name line = true
      · rw [if_pos hcut, List.length_append, List.length_singleton, Nat.even_add_one, not_not]
        exact and_iff_left hcut
      · rw [if_neg hcut]
        simp [hcut]

-- Each line of these that begins with "user:" is hidden.
def NoneFound (name : Bytes) (hidden : Bool) (before : List Bytes) : Prop :=
  ∀ before' line' after', before = before' ++ line' :: after' → begins name line' = true →
    hides name hidden before' = true

theorem NoneFound.rest (h : NoneFound name hidden (line :: before)) :
    NoneFound name (!hidden && cutShort name line) before := by
  intro before' line' after' hsplit hbegins
  rw [← hides_cons]
  exact h (line :: before') line' after' (by rw [hsplit, List.cons_append]) hbegins

theorem reached_append (h : NoneFound name hidden before) (after : List Bytes) :
    reached name hidden (before ++ after) = reached name (hides name hidden before) after := by
  induction before generalizing hidden with
  | nil => rw [List.nil_append, hides]
  | cons line before ih =>
      have hrest := ih h.rest
      rw [List.cons_append, hides_cons]
      cases hidden with
      | true => exact hrest
      | false =>
          have hbegins : ¬begins name line = true := fun hbegins => Bool.false_ne_true (h [] line before rfl hbegins)
          rw [reached, if_neg hbegins]
          exact hrest

theorem reached_split (h : reached name hidden ls = some line) :
    ∃ before after, ls = before ++ line :: after ∧ begins name line = true ∧ hides name hidden before = false ∧
      NoneFound name hidden before := by
  induction ls generalizing hidden with
  | nil => rw [reached] at h; cases h
  | cons head ls ih =>
      have hstep : (hidden = false ∧ begins name head = true ∧ head = line) ∨
          ((begins name head = true → hidden = true) ∧
            reached name (!hidden && cutShort name head) ls = some line) := by
        cases hidden with
        | true => exact Or.inr ⟨fun _ => rfl, h⟩
        | false =>
            rw [reached] at h
            split at h
            · next hbegins => exact Or.inl ⟨rfl, hbegins, Option.some.inj h⟩
            · next hbegins => exact Or.inr ⟨fun hpos => absurd hpos hbegins, h⟩
      rcases hstep with ⟨rfl, hbegins, rfl⟩ | ⟨hhead, hrest⟩
      · refine ⟨[], ls, rfl, hbegins, rfl, fun before' line' after' hsplit => ?_⟩
        exact absurd hsplit (by simp)
      · obtain ⟨before, after, rfl, hbegins, hhides, hnone⟩ := ih hrest
        refine ⟨head :: before, after, rfl, hbegins, by rwa [hides_cons], ?_⟩
        intro before' line' after' hsplit hline'
        cases before' with
        | nil =>
            obtain ⟨rfl, -⟩ := List.cons.inj hsplit
            exact hhead hline'
        | cons head' before' =>
            obtain ⟨rfl, hsplit'⟩ := List.cons.inj hsplit
            rw [hides_cons]
            exact hnone before' line' after' hsplit' hline'

theorem reached_iff_chosen : reached name false ls = some line ↔ Chosen name ls line := by
  constructor
  · intro h
    obtain ⟨before, after, hsplit, hbegins, hhides, hnone⟩ := reached_split h
    refine ⟨before, after, hsplit, hbegins, ?_, fun before' line' after' hsplit' hline' => ?_⟩
    · by_contra hodd
      rw [(hides_iff name before).mpr hodd] at hhides
      cases hhides
    · exact (hides_iff name before').mp (hnone before' line' after' hsplit' hline')
  · rintro ⟨before, after, rfl, hbegins, heven, hodd⟩
    have hnone : NoneFound name false before := fun before' line' after' hsplit hline' =>
      (hides_iff name before').mpr (hodd before' line' after' hsplit hline')
    have hhides : hides name false before = false := by
      rw [← Bool.not_eq_true, hides_iff, not_not]
      exact heven
    rw [reached_append hnone, hhides, reached, if_pos hbegins]

theorem cString_eq_self_iff (s : Bytes) : cString s = s ↔ 0 ∉ s := by
  rw [cString, List.takeWhile_eq_self_iff]
  constructor
  · intro h hmem
    exact absurd (h 0 hmem) (by decide)
  · intro h c hc
    exact decide_eq_true fun hzero : c = 0 => h (hzero ▸ hc)

theorem not_mem_cString (s : Bytes) : 0 ∉ cString s := fun h => absurd (List.mem_takeWhile_imp h) (by decide)

-- What the reading makes of the first line that begins with "user:"
theorem outcome_first_iff (hbegins : begins name line = true) (hfirst : ∀ line' ∈ before, ¬begins name line' = true)
    (hshort : (text name line).length < bufSize) :
    outcome name (reached name false (before ++ line :: after)) = .crypt (text name line) ↔
      0 ∉ text name line ∧
        (Even (run name before) ∨
          ∃ other, Chosen name after other ∧ cString ((text name other).take bufSize) = text name line) := by
  have hnone : NoneFound name false before := by
    rintro before' line' after' rfl hline'
    exact absurd hline' (hfirst line' (List.mem_append_right _ (List.mem_cons_self ..)))
  rw [reached_append hnone]
  by_cases heven : Even (run name before)
  · have hhides : hides name false before = false := by
      rw [← Bool.not_eq_true, hides_iff, not_not]
      exact heven
    rw [hhides, reached, if_pos hbegins, outcome, List.take_of_length_le (Nat.le_of_lt hshort), Outcome.crypt.injEq,
      cString_eq_self_iff]
    exact ⟨fun h => ⟨h, Or.inl heven⟩, fun h => h.1⟩
  · rw [(hides_iff name before).mpr heven, reached]
    constructor
    · intro h
      cases hother : reached name false after with
      | none => rw [hother, outcome] at h; cases h
      | some other =>
          rw [hother, outcome, Outcome.crypt.injEq] at h
          exact ⟨h ▸ not_mem_cString _, Or.inr ⟨other, reached_iff_chosen.mp hother, h⟩⟩
    · rintro ⟨-, heven' | ⟨other, hchosen, hsame⟩⟩
      · exact absurd heven' heven
      · rw [reached_iff_chosen.mpr hchosen, outcome, hsame]

theorem reached_eq_none (h : (lines file).find? (begins name) = none) : reached name false (lines file) = none := by
  rw [Option.eq_none_iff_forall_ne_some]
  intro line hline
  obtain ⟨before, after, hsplit, hbegins, -, -⟩ := reached_split hline
  have hmem : line ∈ lines file := hsplit ▸ List.mem_append_right _ (List.mem_cons_self ..)
  exact List.find?_eq_none.mp h line hmem hbegins

theorem outcome_expected_iff
    (hshort : ∀ line, (lines file).find? (begins name) = some line → (text name line).length < bufSize) :
    outcome name (reached name false (lines file)) = expected name file ↔ Findable name file := by
  rw [expected]
  cases hfind : (lines file).find? (begins name) with
  | none =>
      rw [reached_eq_none hfind]
      refine iff_of_true rfl fun before line after hsplit hbegins _ => ?_
      have hmem : line ∈ lines file := hsplit ▸ List.mem_append_right _ (List.mem_cons_self ..)
      exact absurd hbegins (List.find?_eq_none.mp hfind line hmem)
  | some line =>
      obtain ⟨hbegins, before, after, hsplit, hfirst⟩ := List.find?_eq_some_iff_append.mp hfind
      have hfirst' : ∀ line' ∈ before, ¬begins name line' = true := by
        intro line' hline'
        have hnot := hfirst line' hline'
        rwa [Bool.not_eq_true', ← Bool.not_eq_true] at hnot
      constructor
      · intro h before' line' after' hsplit' hbegins' hnone'
        have hfind' : (lines file).find? (begins name) = some line' := by
          refine List.find?_eq_some_iff_append.mpr ⟨hbegins', before', after', hsplit', fun l hl => ?_⟩
          rw [Bool.not_eq_true', ← Bool.not_eq_true]
          exact hnone' l hl
        obtain rfl := Option.some.inj (hfind.symm.trans hfind')
        rw [hsplit'] at h
        exact (outcome_first_iff hbegins' hnone' (hshort _ hfind)).mp h
      · intro h
        rw [hsplit]
        exact (outcome_first_iff hbegins hfirst' (hshort _ hfind)).mpr (h before line after hsplit hbegins hfirst')

theorem colon_split {auth : Bytes} (h : (auth.takeWhile (· ≠ 58)).length ≠ auth.length) :
    ∃ name more, auth.takeWhile (· ≠ 58) = name ∧ auth = name ++ 58 :: more := by
  have hsplit := List.takeWhile_append_dropWhile (p := fun c : UInt8 => c ≠ 58) (l := auth)
  cases hrest : auth.dropWhile (· ≠ 58) with
  | nil =>
      rw [hrest, List.append_nil] at hsplit
      exact absurd (congrArg List.length hsplit) h
  | cons c more =>
      have hhead := List.head_dropWhile_not (fun c : UInt8 => c ≠ 58) (l := auth) (by rw [hrest]; simp)
      simp only [hrest, List.head_cons, decide_eq_false_iff_not, not_not] at hhead
      rw [hrest, hhead] at hsplit
      exact ⟨_, more, rfl, hsplit.symm⟩

theorem authBasicUser_named {h : HeadersIn} (hauth : authBasicUser h = some user) :
    user.name ≠ [] ∧ ∃ more, Named user user.name more := by
  rw [authBasicUser] at hauth
  split at hauth
  · cases hauth
  split at hauth
  · cases hauth
  split at hauth
  · cases hauth
  simp only at hauth
  split at hauth
  · cases hauth
  split at hauth
  · cases hauth
  next auth _ =>
    split at hauth
    · cases hauth
    next hlen =>
      rw [not_or] at hlen
      obtain ⟨hpos, hcolon⟩ := hlen
      obtain ⟨name, more, hname, rfl⟩ := colon_split hcolon
      rw [hname] at hauth hpos
      obtain rfl := Option.some.inj hauth
      have htake : User.name ⟨name ++ 58 :: more ++ [0], name.length, (name ++ 58 :: more).drop (name.length + 1)⟩ =
          name := by
        rw [User.name, List.append_assoc]
        exact List.take_left' rfl
      rw [htake]
      refine ⟨fun hnil => hpos (by rw [hnil, List.length_nil]), more ++ [0], ?_, rfl⟩
      rw [List.append_assoc, List.cons_append]

theorem handler_right_iff (alcf : LocConf) (hrealm : alcf.realm ≠ []) (huserFile : alcf.userFile ≠ []) (h : HeadersIn)
    (user : User) (hauth : authBasicUser h = some user) (hname : UserName user.name)
    (complexValue : Bytes → Option Bytes) (openFile : Bytes → Opened) (path file : Bytes)
    (hpath : complexValue alcf.userFile = some path) (r : Reader file) (hopen : openFile path = .file r.read)
    (hshort : ∀ line, (lines file).find? (begins user.name) = some line → (text user.name line).length < bufSize)
    (fuel : Nat) (hfuel : file.length < fuel) :
    handler alcf none h complexValue openFile fuel = some (expected user.name file) ↔ Findable user.name file := by
  obtain ⟨hne, more, hnamed⟩ := authBasicUser_named hauth
  have hkept : Kept ⟨.login, 0, 0⟩ [] := ⟨Nat.zero_le _, Or.inr ⟨nofun, rfl⟩⟩
  have hlines := answer_lines hnamed hname hne false file
  rw [if_neg Bool.false_ne_true] at hlines
  rw [handler, if_neg (not_or.mpr ⟨hrealm, huserFile⟩), hauth, hpath]
  simp only
  rw [hopen]
  simp only
  rw [readLoop_answer r hkept (Nat.lt_of_le_of_lt (Nat.sub_le ..) hfuel), List.drop_zero, reading]
  simp only
  rw [hlines, Option.some.injEq]
  exact outcome_expected_iff hshort

-- ngx_read_file that reads as much as it can
def Reader.whole (file : Bytes) : Reader file where
  n := fun size offset => min size (file.length - offset)
  le := fun _ _ => Nat.le_refl _
  pos := fun _ _ hsize hoffset => Nat.lt_min.mpr ⟨hsize, Nat.sub_pos_of_lt hoffset⟩

def location : LocConf := ⟨ngxString "Basic realm=\"closed\"", ngxString "htpasswd"⟩

-- "abc:pw"
def abc : HeadersIn := ⟨false, some (ngxString "Basic YWJjOnB3")⟩

def userAbc : User := ⟨ngxString "abc:pw" ++ [0], 3, ngxString "pw"⟩

def secondLine : Bytes := ngxString "xy:a:b\nabc:pw:more\n"

theorem handler_right_second :
    handler location none abc some (fun _ => .file (Reader.whole secondLine).read) 30 =
      some (expected userAbc.name secondLine) := by
  have hshort : ∀ line, (lines secondLine).find? (begins userAbc.name) = some line →
      (text userAbc.name line).length < bufSize := by
    intro line hline
    have hfound : (lines secondLine).find? (begins userAbc.name) = some (ngxString "abc:pw:more") := by decide
    obtain rfl := Option.some.inj (hfound.symm.trans hline)
    decide
  exact (handler_right_iff location (by decide) (by decide) abc userAbc (by decide +kernel)
    (by decide) some _ location.userFile secondLine rfl (Reader.whole secondLine) rfl hshort 30
    (by decide)).mpr ((outcome_expected_iff hshort).mp (by decide +kernel))

-- The line of the user stands behind a line with the beginning of the name.
def hiddenLine : Bytes := ngxString "ab\nabc:pw\n"

theorem hidden_not_found :
    (authBasicUser abc = some userAbc ∧ UserName userAbc.name) ∧ expected userAbc.name hiddenLine = .crypt (ngxString "pw") ∧
      handler location none abc some (fun _ => .file (Reader.whole hiddenLine).read) 30 = some .setRealm := by
  decide

end Nginx.AuthBasic
