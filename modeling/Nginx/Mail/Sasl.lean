import Nginx.Core.Base64

namespace Nginx.MailSasl

open Base64

-- ngx_str_t: what stands from data on (none is NULL), and the length
structure Str where
  data : Option Bytes
  len : Nat
  deriving DecidableEq

def Str.text (s : Str) : Option Bytes := s.data.map (·.take s.len)

inductive AuthMethod
  | plain
  | login
  | apop
  | cramMd5
  | none
  deriving DecidableEq

-- What an ngx_mail_session_t keeps from one attempt to the next
structure Session where
  login : Str
  passwd : Str
  authMethod : AuthMethod
  salt : Bytes
  deriving DecidableEq

inductive Rc
  | ok
  | done
  | invalidCommand
  deriving DecidableEq

-- while (p < last && *p++)
def skipPart : Bytes → Bytes
  | [] => []
  | c :: p => if c = 0 then p else skipPart p

-- ngx_mail_auth_plain
def authPlain (s : Session) (arg : Bytes) : Rc × Session :=
  match decodeBase64 arg with
  | none => (.invalidCommand, s)
  | some plain =>
      let p := skipPart plain
      if p = [] then (.invalidCommand, s)
      else
        let s := { s with login.data := some p }
        match p.dropWhile (· ≠ 0) with
        | [] => (.invalidCommand, s)
        | _ :: last =>
            (.done, { s with login.len := (p.takeWhile (· ≠ 0)).length, passwd := ⟨some last, last.length⟩ })

-- ngx_mail_auth_login_username; fresh is what the new block holds at first.
def authLoginUsername (s : Session) (arg fresh : Bytes) : Rc × Session :=
  match decodeBase64 arg with
  | none => (.invalidCommand, { s with login.data := some fresh })
  | some text => (.ok, { s with login := ⟨some text, text.length⟩ })

def authLoginPassword (s : Session) (arg fresh : Bytes) : Rc × Session :=
  match decodeBase64 arg with
  | none => (.invalidCommand, { s with passwd.data := some fresh })
  | some text => (.done, { s with passwd := ⟨some text, text.length⟩ })

-- ngx_mail_auth_cram_md5
def authCramMd5 (s : Session) (arg fresh : Bytes) : Rc × Session :=
  match decodeBase64 arg with
  | none => (.invalidCommand, { s with login.data := some fresh })
  | some text =>
      let s := { s with login := ⟨some text, text.length⟩ }
      let s :=
        match text.dropWhile (· ≠ 32) with
        | [] => s
        | _ :: p => { s with login.len := (text.takeWhile (· ≠ 32)).length, passwd := ⟨some p, p.length⟩ }
      if s.passwd.len ≠ 32 then (.invalidCommand, s) else (.done, { s with authMethod := .cramMd5 })

-- What an attempt does to the session. In the request to the authentication server the password is given up
-- when there is a salt for it.
inductive Attempt
  | plain (arg : Bytes)
  | loginUsername (arg fresh : Bytes)
  | loginPassword (arg fresh : Bytes)
  | cramMd5 (arg fresh : Bytes)
  | authHttp

def attempt (s : Session) : Attempt → Session
  | .plain arg => (authPlain s arg).2
  | .loginUsername arg fresh => (authLoginUsername s arg fresh).2
  | .loginPassword arg fresh => (authLoginPassword s arg fresh).2
  | .cramMd5 arg fresh => (authCramMd5 s arg fresh).2
  | .authHttp => if s.authMethod ≠ .plain ∧ s.salt ≠ [] then { s with passwd.data := none } else s

-- A new session, with the salt that its server made for it
def newSession (salt : Bytes) : Session := ⟨⟨none, 0⟩, ⟨none, 0⟩, .plain, salt⟩

def session (salt : Bytes) (attempts : List Attempt) : Session := attempts.foldl attempt (newSession salt)

-- The parts of a decoded text
def Plain (text authzid login passwd : Bytes) : Prop :=
  text = authzid ++ 0 :: (login ++ 0 :: passwd) ∧ 0 ∉ authzid ∧ 0 ∉ login

def CramMd5 (text login hash : Bytes) : Prop := text = login ++ 32 :: hash ∧ 32 ∉ login ∧ hash.length = 32

-- The session has the login and the password.
def Holds (s : Session) (login passwd : Bytes) : Prop := s.login.text = some login ∧ s.passwd.text = some passwd

def PlainRight (s : Session) (arg : Bytes) : Prop :=
  ((authPlain s arg).1 = .done ↔
      ∃ text authzid login passwd, decodeBase64 arg = some text ∧ Plain text authzid login passwd) ∧
    ∀ text authzid login passwd, decodeBase64 arg = some text → Plain text authzid login passwd →
      Holds (authPlain s arg).2 login passwd

def CramMd5Right (s : Session) (arg fresh : Bytes) : Prop :=
  ((authCramMd5 s arg fresh).1 = .done ↔
      ∃ text login hash, decodeBase64 arg = some text ∧ CramMd5 text login hash) ∧
    ∀ text login hash, decodeBase64 arg = some text → CramMd5 text login hash →
      Holds (authCramMd5 s arg fresh).2 login hash

variable {a : UInt8} {front back text authzid login passwd : Bytes}

-- The first place of a byte
theorem span_of_not_mem (back : Bytes) (h : a ∉ front) :
    (front ++ a :: back).takeWhile (· ≠ a) = front ∧ (front ++ a :: back).dropWhile (· ≠ a) = a :: back := by
  have hall : ∀ c ∈ front, decide (c ≠ a) = true := fun c hc => decide_eq_true fun heq => h (heq ▸ hc)
  constructor
  · rw [List.takeWhile_append_of_pos hall, List.takeWhile_cons_of_neg (by simp), List.append_nil]
  · rw [List.dropWhile_append_of_pos hall, List.dropWhile_cons_of_neg (by simp)]

theorem first_unique {front' back' : Bytes} (h : front ++ a :: back = front' ++ a :: back') (hfront : a ∉ front)
    (hfront' : a ∉ front') : front = front' ∧ back = back' := by
  have htake := (span_of_not_mem back hfront).1
  rw [h, (span_of_not_mem back' hfront').1] at htake
  subst htake
  exact ⟨rfl, (List.cons.inj (List.append_cancel_left h)).2⟩

theorem dropWhile_cases (a : UInt8) (text : Bytes) :
    (a ∉ text ∧ text.dropWhile (· ≠ a) = []) ∨ ∃ front back, text = front ++ a :: back ∧ a ∉ front := by
  by_cases ha : a ∈ text
  · right
    obtain ⟨front, back, htext, hfirst⟩ := List.eq_append_cons_of_mem ha
    exact ⟨front, back, htext, hfirst⟩
  · left
    refine ⟨ha, List.dropWhile_eq_nil_iff.mpr fun c hc => ?_⟩
    exact decide_eq_true fun heq : c = a => ha (heq ▸ hc)

theorem skipPart_of_not_mem (h : 0 ∉ text) : skipPart text = [] := by
  induction text with
  | nil => rfl
  | cons c text ih =>
      rw [List.mem_cons, not_or] at h
      obtain ⟨hc, htext⟩ := h
      rw [skipPart, if_neg (Ne.symm hc), ih htext]

theorem skipPart_append (back : Bytes) (h : 0 ∉ front) : skipPart (front ++ 0 :: back) = back := by
  induction front with
  | nil => rw [List.nil_append, skipPart, if_pos rfl]
  | cons c front ih =>
      rw [List.mem_cons, not_or] at h
      obtain ⟨hc, hfront⟩ := h
      rw [List.cons_append, skipPart, if_neg (Ne.symm hc), ih hfront]

theorem authPlain_right (s : Session) (arg : Bytes) : PlainRight s arg := by
  unfold PlainRight authPlain
  cases hdecode : decodeBase64 arg with
  | none => simp
  | some text =>
      dsimp only
      rcases dropWhile_cases 0 text with ⟨hnone, -⟩ | ⟨authzid, rest, rfl, hauthzid⟩
      · rw [skipPart_of_not_mem hnone, if_pos rfl]
        have hnot : ∀ authzid login passwd, ¬Plain text authzid login passwd := by
          rintro authzid login passwd ⟨rfl, -⟩
          exact hnone (by simp)
        refine ⟨by simp [hnot], fun text' authzid login passwd htext hplain => ?_⟩
        cases htext
        exact (hnot _ _ _ hplain).elim
      · rw [skipPart_append rest hauthzid]
        have hsame : ∀ authzid' login passwd, Plain (authzid ++ 0 :: rest) authzid' login passwd →
            rest = login ++ 0 :: passwd ∧ 0 ∉ login := by
          rintro authzid' login passwd ⟨htext, hauthzid', hlogin⟩
          exact ⟨(first_unique htext hauthzid hauthzid').2, hlogin⟩
        rcases dropWhile_cases 0 rest with ⟨hnone, hdrop⟩ | ⟨login, passwd, rfl, hlogin⟩
        · have hnot : ∀ authzid' login passwd, ¬Plain (authzid ++ 0 :: rest) authzid' login passwd := by
            intro authzid' login passwd hplain
            exact hnone ((hsame _ _ _ hplain).1 ▸ by simp)
          rw [hdrop]
          refine ⟨by split <;> simp [hnot], fun text' authzid' login passwd htext hplain => ?_⟩
          cases htext
          exact (hnot _ _ _ hplain).elim
        · obtain ⟨htake, hdrop⟩ := span_of_not_mem passwd hlogin
          rw [if_neg (by simp), hdrop, htake]
          dsimp only
          refine ⟨iff_of_true rfl ⟨_, authzid, login, passwd, rfl, rfl, hauthzid, hlogin⟩, ?_⟩
          rintro text authzid' login' passwd' htext hplain
          cases htext
          obtain ⟨hparts, hlogin'⟩ := hsame _ _ _ hplain
          obtain ⟨rfl, rfl⟩ := first_unique hparts hlogin hlogin'
          constructor <;> simp [Str.text]

theorem authCramMd5_right_iff (s : Session) (arg fresh : Bytes) :
    CramMd5Right s arg fresh ↔ ¬(s.passwd.len = 32 ∧ ∃ text, decodeBase64 arg = some text ∧ 32 ∉ text) := by
  unfold CramMd5Right authCramMd5
  cases hdecode : decodeBase64 arg with
  | none => simp
  | some text =>
      dsimp only
      rcases dropWhile_cases 32 text with ⟨hnone, hdrop⟩ | ⟨login, hash, rfl, hlogin⟩
      · have hnot : ∀ login hash, ¬CramMd5 text login hash := by
          rintro login hash ⟨rfl, -⟩
          exact hnone (by simp)
        rw [hdrop]
        dsimp only
        by_cases hstale : s.passwd.len = 32
        · rw [if_neg (by simpa using hstale)]
          simp [hnot, hstale, hnone]
        · rw [if_pos hstale]
          refine iff_of_true ⟨by simp [hnot], fun text' login hash htext hcram => ?_⟩ fun h => hstale h.1
          cases htext
          exact (hnot _ _ hcram).elim
      · obtain ⟨htake, hdrop⟩ := span_of_not_mem hash hlogin
        have hsame : ∀ login' hash', CramMd5 (login ++ 32 :: hash) login' hash' →
            login' = login ∧ hash' = hash ∧ hash.length = 32 := by
          rintro login' hash' ⟨htext, hlogin', hlength⟩
          obtain ⟨rfl, rfl⟩ := first_unique htext hlogin hlogin'
          exact ⟨rfl, rfl, hlength⟩
        rw [hdrop, htake]
        dsimp only
        refine iff_of_true ⟨?_, ?_⟩ ?_
        · by_cases hlength : hash.length = 32
          · rw [if_neg (by simpa using hlength)]
            exact iff_of_true rfl ⟨_, login, hash, rfl, rfl, hlogin, hlength⟩
          · rw [if_pos hlength]
            refine iff_of_false (by simp) ?_
            rintro ⟨text, login', hash', htext, hcram⟩
            cases htext
            exact hlength (hsame _ _ hcram).2.2
        · rintro text login' hash' htext hcram
          cases htext
          obtain ⟨rfl, rfl, hlength⟩ := hsame _ _ hcram
          rw [if_neg (by simpa using hlength)]
          constructor <;> simp [Str.text]
        · rintro ⟨-, text, htext, hspace⟩
          cases htext
          exact hspace (by simp)

-- After any attempts
theorem credentials_right_iff (salt : Bytes) (attempts : List Attempt) (arg fresh : Bytes) :
    PlainRight (session salt attempts) arg ∧ CramMd5Right (session salt attempts) arg fresh ↔
      ¬((session salt attempts).passwd.len = 32 ∧ ∃ text, decodeBase64 arg = some text ∧ 32 ∉ text) := by
  rw [authCramMd5_right_iff]
  exact and_iff_right (authPlain_right _ _)

-- A refused AUTH PLAIN with a password of 32 bytes, and then AUTH CRAM-MD5 with "abc" for an answer
theorem stale_password_taken :
    (authCramMd5 (session [] [.plain (ngxString "AHUAcHBwcHBwcHBwcHBwcHBwcHBwcHBwcHBwcHBwcHBwcHA="), .authHttp])
        (ngxString "YWJj") []).1 = .done ∧
      decodeBase64 (ngxString "YWJj") = some (ngxString "abc") ∧
      ¬CramMd5Right (session [] [.plain (ngxString "AHUAcHBwcHBwcHBwcHBwcHBwcHBwcHBwcHBwcHBwcHBwcHA="), .authHttp])
        (ngxString "YWJj") [] := by
  have hlen : (session [] [.plain (ngxString "AHUAcHBwcHBwcHBwcHBwcHBwcHBwcHBwcHBwcHBwcHBwcHA="), .authHttp]).passwd.len = 32 := by
    decide
  have hdecode : decodeBase64 (ngxString "YWJj") = some (ngxString "abc") := by decide
  refine ⟨by decide, hdecode, fun h => ?_⟩
  exact (authCramMd5_right_iff _ _ _).mp h ⟨hlen, _, hdecode, by decide⟩

end Nginx.MailSasl
