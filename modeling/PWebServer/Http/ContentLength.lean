import PWebServer.Http.LineGrammar
import PWebServer.Http.SendFile

/-!
# Http.ContentLength

The responses the server generates, read back: the number after
`Content-Length` and the bytes behind the blank line.

`contentLength_iff` says when the two agree: never for an error page, whose
page and tail are both copied with a length that is too large, and for a file
exactly when its length fits an `int` and no `sendfile` was interrupted with
bytes sent.
-/

namespace PWebServer

/-! ## reading a response -/

/-- What is behind the first `word` in a text. -/
def behindFirst (word : List UInt8) : List UInt8 → Option (List UInt8)
  | [] => if word = [] then some [] else none
  | c :: cs =>
      if word.isPrefixOf (c :: cs) then some ((c :: cs).drop word.length) else behindFirst word cs

/-- The integer a text begins with. -/
def readInt : List UInt8 → Int
  | [] => 0
  | c :: cs =>
      if c = '-'.toUInt8 then -(decimal (cs.takeWhile isDigit) : Int)
      else (decimal ((c :: cs).takeWhile isDigit) : Int)

/-- The number after `Content-Length`. -/
def declaredLength (response : List UInt8) : Option Int :=
  (behindFirst contentLengthLabel response).map readInt

/-- What is behind the blank line that ends the header. -/
def bodyOf (response : List UInt8) : Option (List UInt8) := behindFirst (crlf ++ crlf) response

/-- The number after `Content-Length` is that of the bytes behind the blank
line. -/
def LengthRight (response : List UInt8) : Prop :=
  ∃ n body, declaredLength response = some n ∧ bodyOf response = some body ∧ n = body.length

theorem behindFirst_cons {word : List UInt8} {c : UInt8} {cs : List UInt8} :
    behindFirst word (c :: cs) =
      if word <+: c :: cs then some ((c :: cs).drop word.length) else behindFirst word cs := by
  simp only [behindFirst, List.isPrefixOf_iff_prefix]

theorem behindFirst_self {word : List UInt8} (hne : word ≠ []) (ys : List UInt8) :
    behindFirst word (word ++ ys) = some ys := by
  cases word with
  | nil => contradiction
  | cons c cs =>
      have hpre : c :: cs <+: c :: (cs ++ ys) := List.prefix_append (c :: cs) ys
      rw [List.cons_append, behindFirst_cons, if_pos hpre, ← List.cons_append, List.drop_left]

/-- A text is passed in which the word neither stands nor begins. -/
theorem behindFirst_skip {word xs : List UInt8}
    (h : ∀ i < xs.length, ¬ word <+: xs.drop i ∧ ¬ xs.drop i <+: word) (ys : List UInt8) :
    behindFirst word (xs ++ ys) = behindFirst word ys := by
  induction xs with
  | nil => rfl
  | cons c cs ih =>
      have hhead := h 0 (by simp)
      rw [List.drop_zero] at hhead
      have happ : ¬ word <+: c :: (cs ++ ys) := by
        intro hpre
        cases List.prefix_or_prefix_of_prefix hpre (List.prefix_append (c :: cs) ys) with
        | inl hword => exact hhead.1 hword
        | inr hxs => exact hhead.2 hxs
      rw [List.cons_append, behindFirst_cons, if_neg happ]
      refine ih fun i hi => ?_
      have hnext := h (i + 1) (by simpa using hi)
      rwa [List.drop_succ_cons] at hnext

/-! ## numbers -/

/-- A digit as a byte. -/
theorem digit_byte {c : Char} (h : c.isDigit = true) :
    c.toUInt8.toNat = c.toNat ∧ isDigit c.toUInt8 = true := by
  simp only [Char.isDigit, ge_iff_le, Bool.and_eq_true, decide_eq_true_eq, UInt32.le_iff_toNat_le] at h
  have hzero : '0'.val.toNat = 48 := rfl
  have hnine : '9'.val.toNat = 57 := rfl
  have hbyte : c.toUInt8.toNat = c.val.toNat := by
    rw [Char.toUInt8, UInt32.toNat_toUInt8]
    omega
  refine ⟨hbyte, ?_⟩
  have hzero' : '0'.toUInt8.toNat = 48 := rfl
  have hnine' : '9'.toUInt8.toNat = 57 := rfl
  simp only [isDigit, Bool.and_eq_true, decide_eq_true_eq, UInt8.le_iff_toNat_le]
  omega

theorem decimal_map_toUInt8 {cs : List Char} (h : ∀ c ∈ cs, c.isDigit = true) :
    decimal (cs.map Char.toUInt8) = Nat.ofDigitChars 10 cs 0 := by
  have hfold : ∀ n, (cs.map Char.toUInt8).foldl (fun n c => n * 10 + (c.toNat - '0'.toUInt8.toNat)) n =
      Nat.ofDigitChars 10 cs n := by
    induction cs with
    | nil => simp
    | cons c cs ih =>
        intro n
        have hnat := (digit_byte (h c List.mem_cons_self)).1
        have hzero : '0'.toUInt8.toNat = '0'.toNat := by decide
        rw [List.map_cons, List.foldl_cons, Nat.ofDigitChars_cons, hnat, hzero, Nat.mul_comm n 10]
        exact ih (fun c hc => h c (List.mem_cons_of_mem _ hc)) _
  exact hfold 0

/-- The digits `printInt` writes. -/
def digits (n : Nat) : List UInt8 := (Nat.toDigits 10 n).map Char.toUInt8

theorem digits_isDigit {n : Nat} {c : UInt8} (h : c ∈ digits n) : isDigit c = true := by
  obtain ⟨ch, hch, heq⟩ := List.mem_map.mp h
  have hdigit := Nat.isDigit_of_mem_toDigits (by decide) (by decide) hch
  rw [← heq]
  exact (digit_byte hdigit).2

theorem decimal_digits (n : Nat) : decimal (digits n) = n := by
  have hall : ∀ c ∈ Nat.toDigits 10 n, c.isDigit = true := fun c hc =>
    Nat.isDigit_of_mem_toDigits (by decide) (by decide) hc
  rw [digits, decimal_map_toUInt8 hall, Nat.ofDigitChars_ten_toDigits]

theorem takeWhile_digits (n : Nat) (rest : List UInt8) :
    (digits n ++ (crlf ++ rest)).takeWhile isDigit = digits n := by
  rw [List.takeWhile_append_of_pos (fun c hc => digits_isDigit hc)]
  have hcr : isDigit cr = false := by decide
  simp [crlf, hcr]

theorem printInt_eq (n : Int) :
    printInt n = if n < 0 then '-'.toUInt8 :: digits n.natAbs else digits n.natAbs := rfl

theorem readInt_printInt (n : Int) (rest : List UInt8) : readInt (printInt n ++ (crlf ++ rest)) = n := by
  rw [printInt_eq]
  by_cases hneg : n < 0
  · rw [if_pos hneg, List.cons_append, readInt, if_pos rfl, takeWhile_digits, decimal_digits]
    omega
  · rw [if_neg hneg]
    cases hds : digits n.natAbs with
    | nil =>
        have hne : Nat.toDigits 10 n.natAbs ≠ [] := Nat.toDigits_ne_nil
        exact absurd (List.map_eq_nil_iff.mp hds) hne
    | cons c cs =>
        have hc : isDigit c = true := digits_isDigit (hds ▸ List.mem_cons_self)
        have hminus : c ≠ '-'.toUInt8 := by
          intro heq
          rw [heq] at hc
          contradiction
        rw [List.cons_append, readInt, if_neg hminus, ← List.cons_append, ← hds, takeWhile_digits,
          decimal_digits]
        omega

theorem toInt32_bounds (n : Int) : -2 ^ 31 ≤ toInt32 n ∧ toInt32 n < 2 ^ 31 :=
  ⟨BitVec.le_toInt _, BitVec.toInt_lt⟩

theorem printInt_length (n : Int) : (printInt (toInt32 n)).length ≤ 11 := by
  obtain ⟨hlow, hhigh⟩ := toInt32_bounds n
  have hdigits : (digits (toInt32 n).natAbs).length ≤ 10 := by
    rw [digits, List.length_map]
    exact (Nat.length_toDigits_le_iff (by decide) (by decide)).mpr (by omega)
  rw [printInt_eq]
  split
  · rw [List.length_cons]
    omega
  · omega

theorem printInt_clean {n : Int} {c : UInt8} (h : c ∈ printInt n) : c ≠ cr ∧ c ≠ lf := by
  have hdigit : c ∈ digits n.natAbs → c ≠ cr ∧ c ≠ lf := by
    intro hmem
    have hc := digits_isDigit hmem
    constructor
    · intro heq
      rw [heq] at hc
      contradiction
    · intro heq
      rw [heq] at hc
      contradiction
  rw [printInt_eq] at h
  split at h
  · cases List.mem_cons.mp h with
    | inl heq =>
        rw [heq]
        decide
    | inr hmem => exact hdigit hmem
  · exact hdigit h

/-! ## writing -/

theorem appendString_eq {xs str : List UInt8} {k : Nat} (hfits : xs.length + str.length < bufSize) :
    (⟨xs, k⟩ : Buffer).appendString str = .ok ⟨xs ++ str, k⟩ := by
  have hmargin : bufSize - xs.length ≠ 0 := by omega
  have htake : str.take (bufSize - xs.length) = str := List.take_of_length_le (by omega)
  simp only [Buffer.appendString, if_neg hmargin, htake]

theorem sprintfContentLength_eq {xs : List UInt8} {k : Nat} (n : Int) (hfits : xs.length + 30 ≤ bufSize) :
    (⟨xs, k⟩ : Buffer).sprintfContentLength n =
      .ok ⟨xs ++ (contentLengthLabel ++ printInt (toInt32 n) ++ crlf), k⟩ := by
  have hprint := printInt_length n
  have hlabel : contentLengthLabel.length = 16 := rfl
  have hcrlf : crlf.length = 2 := rfl
  have hlen : (contentLengthLabel ++ printInt (toInt32 n) ++ crlf).length < bufSize - xs.length := by
    simp only [List.length_append]
    omega
  have hmargin : bufSize - xs.length ≠ 0 := by omega
  simp only [Buffer.sprintfContentLength, Buffer.sprintf, if_neg hmargin, if_pos hlen]

theorem statusText_length (status : Int) : (statusText status).length ≤ 35 := by
  unfold statusText
  repeat' split
  all_goals decide

theorem responseVersion_length (version : Version) : (responseVersion version).length = 9 := by
  unfold responseVersion
  split <;> rfl

/-- The status line. -/
def statusLine (version : Version) (status : Int) : List UInt8 :=
  responseVersion version ++ statusText status ++ crlf

theorem bufferAppendStatusLine_eq (version : Version) (status : Int) :
    bufferAppendStatusLine version status ⟨[], 0⟩ = .ok ⟨statusLine version status, 0⟩ := by
  have hversion := responseVersion_length version
  have hstatus := statusText_length status
  have hcrlf : crlf.length = 2 := rfl
  have hsize : bufSize = 1025 := rfl
  simp only [bufferAppendStatusLine, bind, Except.bind]
  rw [appendString_eq (by simp only [List.length_nil]; omega)]
  simp only [List.nil_append]
  rw [appendString_eq (by omega)]
  simp only []
  rw [appendString_eq (by simp only [List.length_append]; omega)]
  rfl

theorem errPage_length {err : Int} {page : List UInt8} (h : errPage err = some page) :
    page.length ≤ 190 := by
  unfold errPage at h
  repeat' split at h
  all_goals first
    | contradiction
    | (cases h; simp [errPageWith, cstr])

/-- The header of an error page, up to its `Content-Length`. -/
def errHead (version : Version) (err : Int) : List UInt8 :=
  statusLine version err ++ cstr "Server: pwebServer\r\n" ++ cstr "Connection: close\r\n" ++
    cstr "Content-Type: text/html\r\n"

/-- What stands behind the blank line of an error page. -/
def errBody (behind : Nat → UInt8) (page : List UInt8) : List UInt8 :=
  readStatic page behind (page.length + errPageTail.length) ++ (errPageTail ++ [0]) ++ crlf

theorem constructErrBuffer_eq {err : Int} {page : List UInt8} (h : errPage err = some page)
    (behind : Nat → UInt8) (version : Version) (b : Buffer) :
    constructErrBuffer behind version err b =
      .ok ⟨errHead version err ++
        (contentLengthLabel ++ printInt (toInt32 (page.length + errPageTail.length : Nat)) ++ crlf) ++
        crlf ++ errBody behind page, 0⟩ := by
  have hversion := responseVersion_length version
  have hstatus := statusText_length err
  have hpage := errPage_length h
  have hcrlf : crlf.length = 2 := rfl
  have hzero : ([0] : List UInt8).length = 1 := rfl
  have hlabel : contentLengthLabel.length = 16 := rfl
  have htail : errPageTail.length = 82 := by simp [errPageTail, cstr]
  have hsize : bufSize = 1025 := rfl
  have hserver : (cstr "Server: pwebServer\r\n").length = 20 := rfl
  have hclose : (cstr "Connection: close\r\n").length = 19 := rfl
  have htype : (cstr "Content-Type: text/html\r\n").length = 25 := rfl
  have hprint := printInt_length (page.length + errPageTail.length : Nat)
  have hline : (statusLine version err).length ≤ 46 := by
    simp only [statusLine, List.length_append]
    omega
  have hread : (readStatic page behind (page.length + errPageTail.length)).length =
      page.length + errPageTail.length := by
    rw [readStatic, List.length_map, List.length_range]
  simp only [constructErrBuffer, Buffer.clear, bufferAppendStatusLine_eq, bind, Except.bind,
    appendErrPage, h]
  rw [appendString_eq (by omega)]
  simp only []
  rw [appendString_eq (by simp only [List.length_append]; omega)]
  simp only []
  rw [appendString_eq (by simp only [List.length_append]; omega)]
  simp only []
  rw [sprintfContentLength_eq _ (by simp only [List.length_append]; omega)]
  simp only []
  rw [appendString_eq (by simp only [List.length_append]; omega)]
  simp only []
  rw [appendString_eq (by simp only [List.length_append]; omega)]
  simp only []
  rw [appendString_eq (by simp only [List.length_append]; omega)]
  simp only []
  rw [appendString_eq (by simp only [List.length_append]; omega)]
  simp only [errHead, errBody, List.append_assoc]


/-! ## header lines -/

/-- A header line: not empty, and no line ends in it. -/
def IsLine (line : List UInt8) : Prop := line ≠ [] ∧ ∀ c ∈ line, c ≠ cr ∧ c ≠ lf

instance (line : List UInt8) : Decidable (IsLine line) := inferInstanceAs (Decidable (_ ∧ _))

/-- The lines of a header, each with its end. -/
def headerLines (lines : List (List UInt8)) : List UInt8 := lines.flatMap (· ++ crlf)

@[simp] theorem headerLines_cons (line : List UInt8) (lines : List (List UInt8)) :
    headerLines (line :: lines) = line ++ crlf ++ headerLines lines := List.flatMap_cons

@[simp] theorem headerLines_nil : headerLines [] = [] := rfl

/-- No blank line is in a line. -/
theorem behindFirst_line {line : List UInt8} (h : IsLine line) (ys : List UInt8) :
    behindFirst (crlf ++ crlf) (line ++ ys) = behindFirst (crlf ++ crlf) ys := by
  refine behindFirst_skip (fun i hi => ?_) ys
  have hclean := h.2
  constructor
  · intro hpre
    have hmem : cr ∈ line.drop i := hpre.subset (by simp [crlf])
    exact (hclean cr (List.mem_of_mem_drop hmem)).1 rfl
  · intro hpre
    obtain ⟨c, hc⟩ := List.exists_mem_of_length_pos (List.length_drop.symm ▸ Nat.sub_pos_of_lt hi)
    have hends : c ∈ crlf ++ crlf := hpre.subset hc
    have hnot := hclean c (List.mem_of_mem_drop hc)
    simp [crlf, hnot.1, hnot.2] at hends

/-- One line end is no blank line. -/
theorem behindFirst_newline {c : UInt8} (hc : c ≠ cr) (ys : List UInt8) :
    behindFirst (crlf ++ crlf) (crlf ++ c :: ys) = behindFirst (crlf ++ crlf) (c :: ys) := by
  have hfirst : ¬ crlf ++ crlf <+: cr :: lf :: c :: ys := by
    intro hpre
    simp [crlf, Ne.symm hc] at hpre
  have hsecond : ¬ crlf ++ crlf <+: lf :: c :: ys := by
    intro hpre
    have hne : cr ≠ lf := by decide
    simp [crlf, hne] at hpre
  have hcons : crlf ++ c :: ys = cr :: lf :: c :: ys := rfl
  rw [hcons, behindFirst_cons, if_neg hfirst, behindFirst_cons, if_neg hsecond]

/-- **The body of a response** is what is behind its header lines and one blank
line. -/
theorem bodyOf_headerLines {line : List UInt8} {lines : List (List UInt8)}
    (h : ∀ l ∈ line :: lines, IsLine l) (body : List UInt8) :
    bodyOf (headerLines (line :: lines) ++ crlf ++ body) = some body := by
  induction lines generalizing line with
  | nil =>
      have hline := h line List.mem_cons_self
      rw [headerLines_cons, headerLines_nil, List.append_nil, bodyOf, List.append_assoc,
        List.append_assoc, behindFirst_line hline]
      exact behindFirst_self (by decide) body
  | cons next lines ih =>
      have hline := h line List.mem_cons_self
      have hrest := ih fun l hl => h l (List.mem_cons_of_mem _ hl)
      have hnext := h next (List.mem_cons_of_mem _ List.mem_cons_self)
      cases next with
      | nil => exact absurd rfl hnext.1
      | cons c cs =>
          have hc := (hnext.2 c List.mem_cons_self).1
          rw [bodyOf] at hrest ⊢
          rw [headerLines_cons line, List.append_assoc, List.append_assoc, List.append_assoc,
            behindFirst_line hline, headerLines_cons]
          rw [headerLines_cons] at hrest
          simp only [List.cons_append, List.append_assoc] at hrest ⊢
          rw [behindFirst_newline hc]
          exact hrest

/-- **The declared length** is the number behind the first `Content-Length`;
no line before it has an `L`. -/
theorem declaredLength_headerLines {lines : List (List UInt8)}
    (h : ∀ l ∈ lines, 'L'.toUInt8 ∉ l) (n : Int) (rest : List UInt8) :
    declaredLength (headerLines lines ++ (contentLengthLabel ++ printInt n ++ crlf) ++ rest) = some n := by
  have hlabel : 'L'.toUInt8 ∈ contentLengthLabel := by decide
  have hlf : lf ∉ contentLengthLabel := by decide
  have hskip : behindFirst contentLengthLabel
      (headerLines lines ++ (contentLengthLabel ++ (printInt n ++ (crlf ++ rest)))) =
      behindFirst contentLengthLabel (contentLengthLabel ++ (printInt n ++ (crlf ++ rest))) := by
    induction lines with
    | nil => rfl
    | cons line lines ih =>
        have hline := h line List.mem_cons_self
        rw [headerLines_cons, List.append_assoc, behindFirst_skip]
        · exact ih fun l hl => h l (List.mem_cons_of_mem _ hl)
        · intro i hi
          constructor
          · intro hpre
            have hmem := List.mem_of_mem_drop (hpre.subset hlabel)
            have hcrlf : 'L'.toUInt8 ∉ crlf := by decide
            cases List.mem_append.mp hmem with
            | inl hin => exact hline hin
            | inr hin => exact hcrlf hin
          · intro hpre
            have hlast : lf ∈ (line ++ crlf).drop i := by
              have hend : line ++ crlf = (line ++ [cr]) ++ [lf] := by simp [crlf]
              have hle : i ≤ (line ++ [cr]).length := by
                rw [hend, List.length_append] at hi
                exact Nat.le_of_lt_succ hi
              rw [hend, List.drop_append_of_le_length hle]
              simp
            exact hlf (hpre.subset hlast)
  have hne : contentLengthLabel ≠ [] := by decide
  rw [declaredLength, List.append_assoc, List.append_assoc, List.append_assoc, hskip,
    behindFirst_self hne, Option.map_some, readInt_printInt]

/-- **A response is right** when the number it declares is that of its body. -/
theorem lengthRight_headerLines {line : List UInt8} {lines : List (List UInt8)}
    (h : ∀ l ∈ line :: lines, IsLine l ∧ 'L'.toUInt8 ∉ l) (n : Int) (body : List UInt8) :
    LengthRight (headerLines (line :: lines) ++ (contentLengthLabel ++ printInt n ++ crlf) ++ crlf ++ body) ↔
      n = body.length := by
  have hlabel : IsLine (contentLengthLabel ++ printInt n) := by
    constructor
    · intro hnil
      have hlen := congrArg List.length hnil
      rw [List.length_append] at hlen
      contradiction
    · intro c hc
      cases List.mem_append.mp hc with
      | inl hin => exact (by decide +kernel : ∀ c ∈ contentLengthLabel, c ≠ cr ∧ c ≠ lf) c hin
      | inr hin => exact printInt_clean hin
  have hdeclared : declaredLength (headerLines (line :: lines) ++
      (contentLengthLabel ++ printInt n ++ crlf) ++ (crlf ++ body)) = some n :=
    declaredLength_headerLines (fun l hl => (h l hl).2) n _
  have hlines : ∀ l ∈ line :: (lines ++ [contentLengthLabel ++ printInt n]), IsLine l := by
    intro l hl
    rw [← List.cons_append] at hl
    cases List.mem_append.mp hl with
    | inl hin => exact (h l hin).1
    | inr hin => rw [List.mem_singleton.mp hin]; exact hlabel
  have hbody := bodyOf_headerLines hlines body
  have hjoin : headerLines (line :: (lines ++ [contentLengthLabel ++ printInt n])) =
      headerLines (line :: lines) ++ (contentLengthLabel ++ printInt n ++ crlf) := by
    rw [headerLines, headerLines, ← List.cons_append, List.flatMap_append, List.flatMap_singleton]
  rw [hjoin] at hbody
  rw [← List.append_assoc] at hdeclared
  constructor
  · intro hright
    obtain ⟨m, b, hm, hb, heq⟩ := hright
    rw [hdeclared] at hm
    rw [hbody] at hb
    cases hm
    cases hb
    exact heq
  · intro heq
    exact ⟨n, body, hdeclared, hbody, heq⟩


/-! ## error pages -/

theorem statusLine_line (version : Version) (status : Int) :
    IsLine (responseVersion version ++ statusText status) ∧
      'L'.toUInt8 ∉ responseVersion version ++ statusText status := by
  have hstatus : (∀ c ∈ statusText status, c ≠ cr ∧ c ≠ lf) ∧ 'L'.toUInt8 ∉ statusText status := by
    unfold statusText
    repeat' split
    all_goals decide +kernel
  have hversion : (∀ c ∈ responseVersion version, c ≠ cr ∧ c ≠ lf) ∧
      'L'.toUInt8 ∉ responseVersion version := by
    unfold responseVersion
    split <;> decide +kernel
  have hlen := responseVersion_length version
  refine ⟨⟨?_, fun c hc => ?_⟩, fun hmem => ?_⟩
  · intro hnil
    rw [(List.append_eq_nil_iff.mp hnil).1] at hlen
    contradiction
  · cases List.mem_append.mp hc with
    | inl hin => exact hversion.1 c hin
    | inr hin => exact hstatus.1 c hin
  · cases List.mem_append.mp hmem with
    | inl hin => exact hversion.2 hin
    | inr hin => exact hstatus.2 hin

/-- An error page declares its page and tail, and has the tail a second time. -/
theorem not_lengthRight_err {err : Int} {page : List UInt8} (h : errPage err = some page)
    (behind : Nat → UInt8) (version : Version) (b : Buffer) :
    ∃ bytes, (constructErrBuffer behind version err b).map Buffer.bytes = .ok bytes ∧
      ¬ LengthRight bytes := by
  have hpage := errPage_length h
  have htail : errPageTail.length = 82 := by simp [errPageTail, cstr]
  have hdeclared : toInt32 (page.length + errPageTail.length : Nat) =
      (page.length + errPageTail.length : Nat) := toInt32_eq (by omega) (by omega)
  have hbody : (errBody behind page).length = page.length + errPageTail.length + (errPageTail.length + 3) := by
    simp only [errBody, readStatic, List.length_append, List.length_map, List.length_range,
      crlf, List.length_cons, List.length_nil]
    omega
  have hhead : errHead version err = headerLines [responseVersion version ++ statusText err,
      cstr "Server: pwebServer", cstr "Connection: close", cstr "Content-Type: text/html"] := by
    simp [errHead, statusLine, cstr, crlf, cr, lf]
  have hlines : ∀ l ∈ [responseVersion version ++ statusText err, cstr "Server: pwebServer",
      cstr "Connection: close", cstr "Content-Type: text/html"], IsLine l ∧ 'L'.toUInt8 ∉ l := by
    intro l hl
    cases List.mem_cons.mp hl with
    | inl heq =>
        rw [heq]
        exact statusLine_line version err
    | inr hin =>
        have hrest : ∀ l ∈ [cstr "Server: pwebServer", cstr "Connection: close",
            cstr "Content-Type: text/html"], IsLine l ∧ 'L'.toUInt8 ∉ l := by
          decide +kernel
        exact hrest l hin
  rw [constructErrBuffer_eq h]
  refine ⟨_, rfl, ?_⟩
  intro hright
  rw [hhead] at hright
  have heq := (lengthRight_headerLines hlines _ _).mp hright
  omega

/-! ## files -/

/-- The content type without its line end. -/
def contentTypeLine (ext : Extension) : List UInt8 :=
  match ext with
  | .html => cstr "Content-Type: text/html; charset=utf-8"
  | .txt => cstr "Content-Type: text/plain; charset=utf-8"
  | .json => cstr "Content-Type: application/json; charset=utf-8"
  | .unknownExtension => cstr "Content-Type: text/html; charset=utf-8"

theorem contentType_eq (ext : Extension) : contentType ext = contentTypeLine ext ++ crlf := by
  cases ext <;> simp [contentType, contentTypeLine, cstr, crlf, cr, lf]

theorem contentTypeLine_line (ext : Extension) :
    IsLine (contentTypeLine ext) ∧ 'L'.toUInt8 ∉ contentTypeLine ext := by
  cases ext <;> decide +kernel

theorem contentTypeLine_length (ext : Extension) : (contentTypeLine ext).length ≤ 45 := by
  cases ext <;> decide

theorem constructResponseBuffer_eq (version : Version) (status : Int) (ext : Extension)
    (resourceLen : Int) (b : Buffer) :
    constructResponseBuffer version status ext resourceLen b =
      .ok ⟨headerLines [responseVersion version ++ statusText status, contentTypeLine ext] ++
        (contentLengthLabel ++ printInt (toInt32 resourceLen) ++ crlf) ++ crlf, 0⟩ := by
  have hversion := responseVersion_length version
  have hstatus := statusText_length status
  have htype := contentTypeLine_length ext
  have hcrlf : crlf.length = 2 := rfl
  have hlabel : contentLengthLabel.length = 16 := rfl
  have hsize : bufSize = 1025 := rfl
  have hprint := printInt_length resourceLen
  simp only [constructResponseBuffer, Buffer.clear, bufferAppendStatusLine_eq, bind, Except.bind,
    contentType_eq, statusLine]
  rw [appendString_eq (by simp only [List.length_append]; omega)]
  simp only []
  rw [sprintfContentLength_eq _ (by simp only [List.length_append]; omega)]
  simp only []
  rw [appendString_eq (by simp only [List.length_append]; omega)]
  simp only [headerLines_cons, headerLines_nil, List.append_nil, List.append_assoc]

/-- The bytes sent by calls that were interrupted. -/
def interrupted (os : List Sendfile) : Nat :=
  (os.map fun o => match o with | .intr k => k | _ => 0).sum

/-- What is sent and what is accounted for: an interrupted call sends bytes that
are taken off nowhere. -/
theorem sendFileRun_count {size : Nat} {os : List Sendfile} {s s' : Sending} {want : Int}
    {log : List (Ret × Nat)} (hp : Possible size s want os)
    (h : sendFileRun size s want os = .ok (s', log)) :
    (s'.sent.length : Int) + s'.resourceLen = s.sent.length + s.resourceLen + interrupted os := by
  induction os generalizing s s' want log with
  | nil =>
      simp only [sendFileRun, Except.ok.injEq, Prod.mk.injEq] at h
      simp [interrupted, h.1]
  | cons o os ih =>
      cases o with
      | complete =>
          simp only [sendFileRun, sendFileBody] at h
          split at h
          · contradiction
          · next hzero =>
            simp only [Possible, sendFileBody, if_neg hzero] at hp
            have hnil : os = [] := hp.2
            simp only [bind, Except.bind, pure, Except.pure, Except.ok.injEq, Prod.mk.injEq] at h
            simp only [← h.1, hnil, interrupted, Sending.advance, Sending.took, List.length_append,
              List.length_range', List.map_cons, List.map_nil, List.sum_cons, List.sum_nil]
            omega
      | again k =>
          obtain ⟨hk, hp⟩ := hp
          simp only [sendFileBody, Sendfile.count, Nat.min_eq_left hk] at hp
          rw [sendFileRun_again hk] at h
          cases hrun : sendFileRun size ((s.took k).advance k) ((s.took k).advance k).resourceLen os with
          | error f =>
              rw [hrun] at h
              contradiction
          | ok out =>
              rw [hrun] at h
              simp only [Except.map, Except.ok.injEq, Prod.mk.injEq] at h
              have hrest := ih hp hrun
              rw [← h.1, hrest]
              simp only [interrupted, Sending.advance, Sending.took, List.length_append,
                List.length_range', List.map_cons, List.sum_cons]
              omega
      | intr k =>
          obtain ⟨hk, hp⟩ := hp
          simp only [sendFileBody, Sendfile.count, Nat.min_eq_left hk] at hp
          rw [sendFileRun_intr hk] at h
          have hrest := ih hp h
          rw [hrest]
          simp only [interrupted, Sending.took, List.length_append, List.length_range', List.map_cons,
            List.sum_cons]
          omega
      | fail => exact absurd hp.1 id

/-- When `send_file` returns `OK` nothing is left to be accounted for. -/
theorem sendFileRun_done {size : Nat} {os : List Sendfile} {s s' : Sending} {want : Int}
    {log : List (Ret × Nat)} {n : Nat} (h : sendFileRun size s want os = .ok (s', log))
    (hlast : log.getLast? = some (.ok, n)) : s'.resourceLen = 0 := by
  induction os generalizing s s' want log with
  | nil =>
      simp only [sendFileRun, Except.ok.injEq, Prod.mk.injEq] at h
      rw [← h.2] at hlast
      contradiction
  | cons o os ih =>
      cases o with
      | complete =>
          simp only [sendFileRun, sendFileBody] at h
          split at h
          · contradiction
          · next hzero =>
              simp only [bind, Except.bind, pure, Except.pure, Except.ok.injEq, Prod.mk.injEq] at h
              rw [← h.1]
              simpa using hzero
      | again k =>
          simp only [sendFileRun, sendFileBody, bind, Except.bind] at h
          generalize hrun : sendFileRun size _ _ os = run at h
          cases run with
          | error f => contradiction
          | ok out =>
              obtain ⟨s₁, log₁⟩ := out
              simp only [Except.map, Except.ok.injEq, Prod.mk.injEq] at h
              rw [← h.2] at hlast
              rw [← h.1]
              cases log₁ with
              | nil => simp at hlast
              | cons e es =>
                  rw [List.getLast?_cons_cons] at hlast
                  exact ih hrun hlast
      | intr k => exact ih h hlast
      | fail =>
          simp only [sendFileRun, sendFileBody, bind, Except.bind, pure, Except.pure,
            Except.ok.injEq, Prod.mk.injEq] at h
          rw [← h.2] at hlast
          simp at hlast

/-! ## the law -/

/-- A response the server generates: by `construct_err`, or by
`construct_response` and the calls of `send_file` that follow. -/
inductive Generated where
  | error (version : Version) (err : Int)
  | file (version : Version) (status : Int) (ext : Extension) (content : List UInt8)
      (outcomes : List Sendfile)

/-- The bytes that go out, the send buffer having held anything before. -/
def Generated.bytes (behind : Nat → UInt8) (b : Buffer) : Generated → Except Fault (List UInt8)
  | .error version err => (constructErrBuffer behind version err b).map Buffer.bytes
  | .file version status ext content os => do
      let size := content.length
      let b ← constructResponseBuffer version status ext size b
      let (s, _) ← sendFileRun size { resourceLen := size } size os
      pure (b.bytes ++ s.sent.map fun i => content.getD i 0)

/-- The response goes out to its end: the error has a page, and the last call
of `send_file` returns `OK`. -/
def Generated.Complete : Generated → Prop
  | .error _ err => errPage err ≠ none
  | .file _ _ _ content os =>
      Possible content.length { resourceLen := content.length } content.length os ∧
      ∃ s log n, sendFileRun content.length { resourceLen := content.length } content.length os =
        .ok (s, log) ∧ log.getLast? = some (.ok, n)

/-- A file whose length is an `int`, and no `sendfile` interrupted with bytes
sent. -/
def Generated.Whole : Generated → Prop
  | .error _ _ => False
  | .file _ _ _ content os => content.length < 2 ^ 31 ∧ ∀ k, .intr k ∈ os → k = 0

theorem interrupted_eq_zero (os : List Sendfile) :
    interrupted os = 0 ↔ ∀ k, Sendfile.intr k ∈ os → k = 0 := by
  rw [interrupted, List.sum_eq_zero_iff_forall_eq_nat]
  constructor
  · intro h k hk
    exact h k (List.mem_map.mpr ⟨.intr k, hk, rfl⟩)
  · intro h n hn
    obtain ⟨o, ho, heq⟩ := List.mem_map.mp hn
    cases o with
    | intr k =>
        rw [← heq]
        exact h k ho
    | complete => exact heq.symm
    | again k => exact heq.symm
    | fail => exact heq.symm

/-- `%d` prints a length as it is when it is an `int`. -/
theorem toInt32_length {size n : Nat} (h : size ≤ n) :
    toInt32 size = n ↔ size < 2 ^ 31 ∧ n = size := by
  have hbound := (toInt32_bounds size).2
  constructor
  · intro heq
    have hlt : size < 2 ^ 31 := by omega
    have hsame := toInt32_eq (Int.natCast_nonneg size) (by omega)
    exact ⟨hlt, by omega⟩
  · intro hboth
    obtain ⟨hlt, heq⟩ := hboth
    rw [toInt32_eq (Int.natCast_nonneg size) (by omega), heq]

theorem lengthRight_file (version : Version) (status : Int) (ext : Extension) (n : Int)
    (body : List UInt8) :
    LengthRight (headerLines [responseVersion version ++ statusText status, contentTypeLine ext] ++
      (contentLengthLabel ++ printInt n ++ crlf) ++ crlf ++ body) ↔ n = body.length := by
  refine lengthRight_headerLines (fun l hl => ?_) n body
  cases List.mem_cons.mp hl with
  | inl heq =>
      rw [heq]
      exact statusLine_line version status
  | inr hin =>
      rw [List.mem_singleton.mp hin]
      exact contentTypeLine_line ext

/-- **The declared length**: a response that goes out to its end declares the
number of the bytes behind its blank line if and only if it is a file, its
length is an `int` and no `sendfile` was interrupted with bytes sent. -/
theorem contentLength_iff (behind : Nat → UInt8) (b : Buffer) (g : Generated) (h : g.Complete) :
    ∃ bytes, g.bytes behind b = .ok bytes ∧ (LengthRight bytes ↔ g.Whole) := by
  cases g with
  | error version err =>
      cases hpage : errPage err with
      | none => exact absurd hpage h
      | some page =>
          obtain ⟨bytes, hbytes, hwrong⟩ := not_lengthRight_err hpage behind version b
          exact ⟨bytes, hbytes, iff_of_false hwrong id⟩
  | file version status ext content os =>
      obtain ⟨hp, s, log, n, hrun, hlast⟩ := h
      have hcount := sendFileRun_count hp hrun
      have hdone := sendFileRun_done hrun hlast
      have hsent : s.sent.length = content.length + interrupted os := by
        simp only [List.length_nil] at hcount
        omega
      simp only [Generated.bytes, constructResponseBuffer_eq, hrun, bind, Except.bind, pure, Except.pure]
      refine ⟨_, rfl, ?_⟩
      rw [lengthRight_file, List.length_map, toInt32_length (by omega), Generated.Whole,
        ← interrupted_eq_zero]
      omega

/-- A file of three bytes in two pieces. -/
theorem contentLength_file :
    ∃ bytes, (Generated.file ⟨1, 1⟩ 200 .txt [65, 66, 67] [.again 1, .complete]).bytes (fun _ => 0)
      ⟨[], 0⟩ = .ok bytes ∧
      (LengthRight bytes ↔ (Generated.file ⟨1, 1⟩ 200 .txt [65, 66, 67] [.again 1, .complete]).Whole) :=
  contentLength_iff (fun _ => 0) ⟨[], 0⟩ (.file ⟨1, 1⟩ 200 .txt [65, 66, 67] [.again 1, .complete])
    ⟨⟨by decide, trivial, rfl⟩, _, _, 3, rfl, rfl⟩

/-- The page for a file that is not there. -/
theorem contentLength_notFound :
    (Generated.error ⟨1, 1⟩ 404).Complete ∧
      ∃ bytes, (Generated.error ⟨1, 1⟩ 404).bytes (fun _ => 0) ⟨[], 0⟩ = .ok bytes ∧ ¬ LengthRight bytes := by
  have hpage : errPage 404 = some (errPageWith "404 Not Found") := by simp [errPage]
  constructor
  · intro hnone
    rw [hpage] at hnone
    contradiction
  · exact not_lengthRight_err hpage (fun _ => 0) ⟨1, 1⟩ ⟨[], 0⟩

end PWebServer
