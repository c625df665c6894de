import Nginx.Core.Printf

namespace Nginx.Myconfig

-- ngx_http_myconfig_loc_conf_t. A null ngx_str_t is none, NGX_CONF_UNSET is -1.
structure LocConf where
  argStr : Option Bytes
  argCounter : Int
  argFlag : Int
  argEnumSeq : Int
  bufsNum : Int
  bufsSize : Int

def createLocConf : LocConf := ⟨none, -1, -1, -1, 0, 0⟩

-- A directive with its argument as ngx_atoi or ngx_parse_size read it; -1 is NGX_ERROR.
inductive Directive where
  | mystring (value : Bytes)
  | mycounter (value : Int)
  | myflag (on : Bool)
  | mygrade (seq : Int)
  | mybufs (num size : Int)

-- The ngx_conf_set_*_slot functions; none is "is duplicate" or an invalid value.
def set (conf : LocConf) : Directive → Option LocConf
  | .mystring value =>
      if conf.argStr.isSome then none else some { conf with argStr := some value }
  | .mycounter value =>
      if conf.argCounter ≠ -1 ∨ value = -1 then none else some { conf with argCounter := value }
  | .myflag on =>
      if conf.argFlag ≠ -1 then none else some { conf with argFlag := if on then 1 else 0 }
  | .mygrade seq =>
      if conf.argEnumSeq ≠ -1 then none
      else if seq ∈ [1, 2, 3] then some { conf with argEnumSeq := seq } else none
  | .mybufs num size =>
      if conf.bufsNum ≠ 0 ∨ num = -1 ∨ num = 0 ∨ size = -1 ∨ size = 0 then none
      else some { conf with bufsNum := num, bufsSize := size }

def configure (directives : List Directive) : Option LocConf :=
  directives.foldlM set createLocConf

def format : Bytes :=
  ngxString "mystring=%s, mycounter=%d, myflag=%s, mygrage=%s, buf_num=%d, buf_size=%z"

def myflag (conf : LocConf) : Bytes := if conf.argFlag = 1 then ngxString "on" else ngxString "off"

def grade (conf : LocConf) : Bytes :=
  if conf.argEnumSeq = 1 then ngxString "good"
  else if conf.argEnumSeq = 2 then ngxString "better" else ngxString "best"

def contentLength (conf : LocConf) (mystring : Bytes) : Nat :=
  format.length + mystring.length + (myflag conf).length + (grade conf).length

inductive Outcome where
  | notAllowed
  | internalServerError
  | headerOnly (contentLengthN : Int)
  | content (contentLengthN : Int) (written : Bytes)

-- ngx_http_myconfig_handler after the request body is discarded. buf is the address ngx_pcalloc
-- returns for content_length bytes, if any; a configuration token ends with a NUL byte, and
-- %s on a null string dereferences NULL (none).
def handler (get head : Bool) (buf : Option Nat) (conf : LocConf) : Option Outcome :=
  if !get && !head then some .notAllowed
  else if head then some (.headerOnly (ngxString "text/plain").length)
  else
    match buf with
    | none => some .internalServerError
    | some buf => do
        let mystring ← conf.argStr
        let written ← Printf.sprintf buf format [.ptr (mystring ++ [0]),
          .word (BitVec.ofInt 64 conf.argCounter), .ptr (myflag conf ++ [0]), .ptr (grade conf ++ [0]),
          .word (BitVec.ofInt 64 conf.bufsNum), .word (BitVec.ofInt 64 conf.bufsSize)]
        return .content (contentLength conf mystring) written

-- What the string prints as, and the characters the three numbers take: %d reads an int.
def printed (mystring : Bytes) : Bytes := mystring.takeWhile (· ≠ 0)

def widths (conf : LocConf) : Nat :=
  Printf.decimalWidth (toInt32 conf.argCounter) + Printf.decimalWidth (toInt32 conf.bufsNum) +
    Printf.decimalWidth (toInt64 conf.bufsSize)

-- The text stays within the buffer and is as long as announced.
def Fits (outcome : Option Outcome) : Prop :=
  ∃ n written, outcome = some (.content n written) ∧ (written.length : Int) ≤ n ∧ n = written.length

theorem setWidth_toInt (n : Int) : ((BitVec.ofInt 64 n).setWidth 32).toInt = toInt32 n := by
  rw [BitVec.toInt_setWidth, BitVec.toNat_ofInt, toInt32, Int.bmod_def, Int.bmod_def]
  omega

theorem ofInt_toInt (n : Int) : (BitVec.ofInt 64 n).toInt = toInt64 n := by
  rw [BitVec.toInt_ofInt, toInt64]

theorem decimal_toInt64_length (n : Int) :
    (Printf.decimal (toInt64 n)).length = Printf.decimalWidth (toInt64 n) := by
  apply Printf.decimal_length
  unfold toInt64
  rw [Int.bmod_def]
  split <;> omega

theorem decimal_toInt32_length (n : Int) :
    (Printf.decimal (toInt32 n)).length = Printf.decimalWidth (toInt32 n) := by
  apply Printf.decimal_length
  unfold toInt32
  rw [Int.bmod_def]
  split <;> omega

theorem format_renders (conf : LocConf) (mystring : Bytes) :
    Printf.Renders format [.ptr (mystring ++ [0]), .word (BitVec.ofInt 64 conf.argCounter),
      .ptr (myflag conf ++ [0]), .ptr (grade conf ++ [0]), .word (BitVec.ofInt 64 conf.bufsNum),
      .word (BitVec.ofInt 64 conf.bufsSize)]
      (ngxString "mystring=" ++ (printed (mystring ++ [0]) ++ (ngxString ", mycounter=" ++
        (Printf.decimal (toInt32 conf.argCounter) ++ (ngxString ", myflag=" ++
        (printed (myflag conf ++ [0]) ++ (ngxString ", mygrage=" ++ (printed (grade conf ++ [0]) ++
        (ngxString ", buf_num=" ++ (Printf.decimal (toInt32 conf.bufsNum) ++
        (ngxString ", buf_size=" ++ (Printf.decimal (toInt64 conf.bufsSize) ++ [])))))))))))) := by
  have hfmt : format = ngxString "mystring=" ++ (37 :: 115 :: (ngxString ", mycounter=" ++
      (37 :: 100 :: (ngxString ", myflag=" ++ (37 :: 115 :: (ngxString ", mygrage=" ++
      (37 :: 115 :: (ngxString ", buf_num=" ++ (37 :: 100 :: (ngxString ", buf_size=" ++
      (37 :: 122 :: []))))))))))) := by
    rw [format, ngxString_ofList, ngxString_ofList, ngxString_ofList, ngxString_ofList, ngxString_ofList,
      ngxString_ofList, ngxString_ofList]
    rfl
  rw [hfmt, ← setWidth_toInt, ← setWidth_toInt, ← ofInt_toInt]
  apply Printf.Renders.text _ _ (by decide)
  refine Printf.Renders.cstr ?_ _ (by simp)
  apply Printf.Renders.text _ _ (by decide)
  apply Printf.Renders.int
  apply Printf.Renders.text _ _ (by decide +kernel)
  refine Printf.Renders.cstr ?_ _ (by simp)
  apply Printf.Renders.text _ _ (by decide)
  refine Printf.Renders.cstr ?_ _ (by simp)
  apply Printf.Renders.text _ _ (by decide)
  apply Printf.Renders.int
  apply Printf.Renders.text _ _ (by decide)
  apply Printf.Renders.ssize
  exact .done []

theorem printed_terminated (s : Bytes) : printed (s ++ [0]) = printed s := by
  unfold printed
  rw [List.takeWhile_append]
  split
  · rename_i hall
    have hfull := (List.takeWhile_prefix _).eq_of_length hall
    rw [hfull]
    simp
  · rfl

theorem printed_myflag (conf : LocConf) : printed (myflag conf) = myflag conf := by
  unfold myflag
  split <;> decide

theorem printed_grade (conf : LocConf) : printed (grade conf) = grade conf := by
  unfold grade
  split
  · decide
  · split <;> decide

theorem widths_le (conf : LocConf) : widths conf ≤ 63 := by
  have h32 : ∀ n : Int, (toInt32 n).natAbs < 10 ^ 20 := by
    intro n
    rw [toInt32, Int.bmod_def]
    split <;> omega
  have h64 : (toInt64 conf.bufsSize).natAbs < 10 ^ 20 := by
    rw [toInt64, Int.bmod_def]
    split <;> omega
  have h1 := Printf.decimalWidth_le _ (h32 conf.argCounter)
  have h2 := Printf.decimalWidth_le _ (h32 conf.bufsNum)
  have h3 := Printf.decimalWidth_le _ h64
  unfold widths
  omega

theorem handler_content (buf : Nat) (conf : LocConf) (mystring : Bytes)
    (hstr : conf.argStr = some mystring) (hbuf : buf + contentLength conf mystring < 2 ^ 63) :
    ∃ written, handler true false (some buf) conf =
        some (.content (contentLength conf mystring) written) ∧
      written.length + 12 + mystring.length =
        contentLength conf mystring + widths conf + (printed mystring).length := by
  have hr := format_renders conf mystring
  generalize htext : ngxString "mystring=" ++ _ = text at hr
  have hlength : text.length + 12 + mystring.length =
      contentLength conf mystring + widths conf + (printed mystring).length := by
    have h := congrArg List.length htext
    have h1 : (ngxString "mystring=").length = 9 := ngxString_length _
    have h2 : (ngxString ", mycounter=").length = 12 := ngxString_length _
    have h3 : (ngxString ", myflag=").length = 9 := ngxString_length _
    have h4 : (ngxString ", mygrage=").length = 10 := ngxString_length _
    have h5 : (ngxString ", buf_num=").length = 10 := ngxString_length _
    have h6 : (ngxString ", buf_size=").length = 11 := ngxString_length _
    have h7 : format.length = 73 := by decide
    simp only [List.length_append, printed_terminated, printed_myflag, printed_grade,
      decimal_toInt32_length, decimal_toInt64_length, h1, h2, h3, h4, h5, h6, List.length_nil] at h
    unfold contentLength widths
    omega
  have hwidths := widths_le conf
  have hprinted : (printed mystring).length ≤ mystring.length := by
    unfold printed
    exact (List.takeWhile_prefix _).length_le
  have htake : text.take (2 ^ 64 - 1 - buf) = text := List.take_of_length_le (by omega)
  refine ⟨text, ?_, hlength⟩
  have hsprintf := Printf.vslprintf_eq_take hr (2 ^ 64 - 1 - buf)
  rw [htake] at hsprintf
  simp only [handler, hstr, Printf.sprintf, Option.bind_eq_bind, Option.bind_some, hsprintf]
  rfl

-- The buffer is right exactly when the numbers fill the 12 places of the conversions, the part
-- of the string behind a NUL byte making room for more.
def Sized (conf : LocConf) : Prop :=
  ∃ mystring, conf.argStr = some mystring ∧
    widths conf + (printed mystring).length = 12 + mystring.length

theorem handler_fits_iff (buf : Nat) (conf : LocConf)
    (hbuf : ∀ mystring, conf.argStr = some mystring → buf + contentLength conf mystring < 2 ^ 63) :
    Fits (handler true false (some buf) conf) ↔ Sized conf := by
  cases hstr : conf.argStr with
  | none => simp [Fits, Sized, handler, hstr]
  | some mystring =>
      obtain ⟨written, hout, hlen⟩ := handler_content buf conf mystring hstr (hbuf _ hstr)
      constructor
      · rintro ⟨n, text, heq, -, hn⟩
        rw [hout] at heq
        simp only [Option.some.injEq, Outcome.content.injEq] at heq
        obtain ⟨rfl, rfl⟩ := heq
        exact ⟨mystring, hstr, by omega⟩
      · rintro ⟨mystring', hstr', h⟩
        obtain rfl := Option.some.inj (hstr ▸ hstr')
        exact ⟨_, _, hout, by omega, by omega⟩

theorem handler_fits_iff_example :
    let conf : LocConf := ⟨some (ngxString "smile_to_life"), 24, 1, 2, 1000000, 4096⟩
    Fits (handler true false (some 4096) conf) ↔ Sized conf :=
  handler_fits_iff 4096 _ (fun _ h => Option.some.inj h ▸ by decide)

-- mystring smile_to_life; mycounter 2147483648; mybufs 2147483648 9223372036854775807 is
-- accepted, and the text runs 29 bytes past the end of content_buf.
theorem accepted_overflows :
    let directives : List Directive := [.mystring (ngxString "smile_to_life"),
      .mycounter 2147483648, .mybufs 2147483648 9223372036854775807]
    ∃ conf, configure directives = some conf ∧
      ¬Fits (handler true false (some 4096) conf) ∧
      ∃ n written, handler true false (some 4096) conf = some (.content n written) ∧
        (written.length : Int) = n + 29 := by
  intro directives
  let conf : LocConf :=
    ⟨some (ngxString "smile_to_life"), 2147483648, -1, -1, 2147483648, 9223372036854775807⟩
  obtain ⟨written, hout, hlen⟩ := handler_content 4096 conf _ rfl (by decide)
  have hw : widths conf = 41 := by
    have h1 : Nat.log 10 2147483648 = 9 := Nat.log_eq_of_pow_le_of_lt_pow (by decide) (by decide)
    have h2 : Nat.log 10 9223372036854775807 = 18 :=
      Nat.log_eq_of_pow_le_of_lt_pow (by decide) (by decide)
    simp [widths, conf, toInt32, toInt64, Int.bmod_def, Printf.decimalWidth, h1, h2]
  have hlong : (written.length : Int) = contentLength conf (ngxString "smile_to_life") + 29 := by
    have hp : (printed (ngxString "smile_to_life")).length = 13 := by decide
    have hs : (ngxString "smile_to_life").length = 13 := ngxString_length _
    omega
  refine ⟨conf, rfl, ?_, _, written, hout, hlong⟩
  rintro ⟨n, text, heq, hle, -⟩
  rw [hout] at heq
  simp only [Option.some.injEq, Outcome.content.injEq] at heq
  obtain ⟨rfl, rfl⟩ := heq
  omega

end Nginx.Myconfig
