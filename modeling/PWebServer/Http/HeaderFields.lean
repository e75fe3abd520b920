import PWebServer.Http.ParseHeaders

/-!
# Http.HeaderFields

What the calls of `parse_header` in the loop of `http_parse_headers` make of a
list of fields: each call yields the name in small letters and the value, up to
the blank line.

The value begins at the first byte that is no space, whatever that is.  Where
there is no value it is the CR, and the LF behind it ends the line.
-/

namespace PWebServer

open Scan

/-- A header field as the client may send it. -/
structure HeaderField where
  name : List UInt8
  blanks : Nat
  value : List UInt8
  name_ok : HeaderName name
  value_ok : ∀ c ∈ value, c ≠ cr ∧ c ≠ lf
  value_head : value.head? ≠ some space

namespace HeaderField

variable (f : HeaderField)

/-- The line of a field. -/
def text : List UInt8 := f.name ++ [colon] ++ spaces f.blanks ++ f.value ++ [cr, lf]

/-- The line as it stands in the buffer when it has been read. -/
def lowered : List UInt8 := f.name.map lowerCase ++ [colon] ++ spaces f.blanks ++ f.value ++ [cr, lf]

/-- The line when its name has been ended with a NUL. -/
def written : List UInt8 := f.name.map lowerCase ++ [0] ++ (spaces f.blanks ++ f.value ++ [cr, lf])

/-- What is to be read from a field. -/
def read : List UInt8 × List UInt8 := (f.name.map lowerCase, f.value)

/-- What is read from a field. -/
def got : List UInt8 × List UInt8 := (f.name.map lowerCase, if f.value = [] then [cr] else f.value)

theorem got_eq_iff : f.got = f.read ↔ f.value ≠ [] := by
  unfold got read
  split
  · next hnone => simp [hnone]
  · next hsome => simp [hsome]

end HeaderField

/-- The calls of `parse_header` in the loop of `http_parse_headers`, up to the
blank line: the results of the last one, and what the others have read. -/
def headerFields (r : HttpRequest) (b : Buffer) (behind : List UInt8) :
    Except Fault (Ret × List (List UInt8 × List UInt8) × HttpRequest × Buffer) :=
  match _hcall : parseHeader r b with
  | (.ok, r', b') =>
      if r'.headerName.c = none then .ok (.ok, [], r', b')
      else
        match _hline : handleHeader r' b' behind with
        | .error f => .error f
        | .ok (r'', b'', behind') => do
            let (ret, fields, last) ← headerFields r'' b'' behind'
            let memory := b'.bytes ++ behind
            pure (ret, (r'.headerName.text memory, r'.headerValue.text memory) :: fields, last)
  | (ret, r', b') => .ok (ret, [], r', b')
termination_by b.bytes.length - b.begin
decreasing_by
  rw [parseHeader_eq] at _hcall
  have hbegin := parseCall_ok _hcall
  have hlen := parseCall_length _hcall
  have hline := handleHeader_buffer _hline
  omega

section

variable {r r' r'' q : HttpRequest} {b b' b'' : Buffer} {m m' : List UInt8} {f : HeaderField}

/-! ## one call -/

theorem headerFields_blank (hcall : parseHeader r b = (.ok, r', b')) (hname : r'.headerName.c = none) :
    headerFields r b m = .ok (.ok, [], r', b') := by
  rw [headerFields]
  split
  · next heq =>
    rw [hcall] at heq
    cases heq
    exact if_pos hname
  · next hret heq =>
    rw [hcall] at heq
    cases heq
    exact (hret rfl).elim

theorem headerFields_field (hcall : parseHeader r b = (.ok, r', b')) (hname : r'.headerName.c ≠ none)
    (hline : handleHeader r' b' m = .ok (r'', b'', m')) :
    headerFields r b m = (headerFields r'' b'' m').map fun (ret, fields, last) =>
      (ret, (r'.headerName.text (b'.bytes ++ m), r'.headerValue.text (b'.bytes ++ m)) :: fields, last) := by
  rw [headerFields]
  split
  · next heq =>
    rw [hcall] at heq
    cases heq
    rw [if_neg hname]
    split
    · next hline' =>
      rw [hline] at hline'
      contradiction
    · next hline' =>
      rw [hline] at hline'
      cases hline'
      cases headerFields r'' b'' m' <;> rfl
  · next hret heq =>
    rw [hcall] at heq
    cases heq
    exact (hret rfl).elim

/-- The line of a field, by the first byte behind its spaces. -/
theorem HeaderField.split (f : HeaderField) :
    ∃ v t e, v ≠ space ∧ (∀ c ∈ t, c ≠ cr ∧ c ≠ lf) ∧ LineEnd e ∧ f.value ++ [cr, lf] = v :: t ++ e ∧
      f.got.2 = v :: t := by
  unfold got
  cases hvalue : f.value with
  | nil => exact ⟨cr, [], [lf], by decide, fun c hc => absurd hc List.not_mem_nil, .inl rfl, rfl, rfl⟩
  | cons v t =>
      refine ⟨v, t, [cr, lf], fun hspace => f.value_head ?_, fun c hc => f.value_ok c ?_, .inr rfl, rfl, rfl⟩
      · rw [hvalue, hspace]
        rfl
      · rw [hvalue]
        exact List.mem_cons_of_mem v hc

/-- A call that reads a field, and what the loop makes of it. -/
theorem HeaderField.call (f : HeaderField) (hq : q.state = .hdBegin) (pre rest m : List UInt8) :
    ∃ r' r'', r''.state = .hdBegin ∧ r'.headerName.c ≠ none ∧
      parseHeader q ⟨pre ++ (f.text ++ rest), pre.length⟩ =
        (.ok, r', ⟨pre ++ f.lowered ++ rest, (pre ++ f.lowered).length⟩) ∧
      (r'.headerName.text (pre ++ f.lowered ++ rest ++ m), r'.headerValue.text (pre ++ f.lowered ++ rest ++ m)) =
        f.got ∧
      handleHeader r' ⟨pre ++ f.lowered ++ rest, (pre ++ f.lowered).length⟩ m =
        .ok (r'', ⟨pre ++ f.written ++ rest, (pre ++ f.lowered).length⟩, m) := by
  obtain ⟨v, t, e, hv, ht, he, hvalue, hgot⟩ := f.split
  have hnone : spaces 0 = [] := rfl
  have htext : f.text = spaces 0 ++ f.name ++ [colon] ++ spaces f.blanks ++ v :: t ++ e := by
    rw [text, List.append_assoc _ f.value, hvalue, hnone, List.nil_append, List.append_assoc _ (v :: t)]
  have hlowered : f.lowered = spaces 0 ++ f.name.map lowerCase ++ [colon] ++ spaces f.blanks ++ v :: t ++ e := by
    rw [lowered, List.append_assoc _ f.value, hvalue, hnone, List.nil_append, List.append_assoc _ (v :: t)]
  have hwritten : f.written = spaces 0 ++ f.name.map lowerCase ++ [0] ++ (spaces f.blanks ++ v :: t ++ e) := by
    rw [written, List.append_assoc (spaces f.blanks), hvalue, hnone, List.nil_append,
      List.append_assoc (spaces f.blanks)]
  have hcall := parseHeader_valued hq 0 f.name_ok f.blanks hv ht he pre rest
  obtain ⟨r'', hstate, -, hline⟩ := handleHeader_valued q pre rest m 0 f.name f.blanks v t he
    (pre ++ f.lowered).length
  rw [← htext, ← hlowered] at hcall
  rw [← hlowered, ← hwritten] at hline
  refine ⟨_, r'', hstate, Option.some_ne_none _, hcall, Prod.ext ?_ ?_, hline⟩
  · have hname := name_text pre f.name ([colon] ++ (spaces f.blanks ++ v :: t ++ e) ++ rest ++ m) 0
    rw [hlowered]
    simpa [HttpRequest.headerAt, got] using hname
  · have hdrop : (pre ++ f.lowered ++ rest ++ m).drop (pre.length + 0 + f.name.length + 1 + f.blanks) =
        (v :: t) ++ (e ++ (rest ++ m)) := by
      have hsplit : pre ++ f.lowered ++ rest ++ m =
          (pre ++ f.name.map lowerCase ++ [colon] ++ spaces f.blanks) ++ ((v :: t) ++ (e ++ (rest ++ m))) := by
        rw [hlowered, hnone]
        simp
      rw [hsplit]
      exact List.drop_left' (by simp; omega)
    rw [hgot]
    simp only [HttpRequest.headerAt, Str.text, Option.getD_some, hdrop]
    exact List.take_left' (by simp)

/-! ## all calls -/

theorem HeaderField.length_written (f : HeaderField) : f.written.length = f.text.length := by
  simp [written, text]

theorem HeaderField.length_lowered (f : HeaderField) : f.lowered.length = f.text.length := by
  simp [lowered, text]

/-- The fields are read one after the other. -/
theorem headerFields_got (fields : List HeaderField) (hq : q.state = .hdBegin) (pre rest m : List UInt8) :
    ∃ r' lines, r'.headerName.c = none ∧ lines.length = (fields.flatMap HeaderField.text).length + 2 ∧
      headerFields q ⟨pre ++ (fields.flatMap HeaderField.text ++ [cr, lf] ++ rest), pre.length⟩ m =
        .ok (.ok, fields.map HeaderField.got, r', ⟨pre ++ lines ++ rest, (pre ++ lines).length⟩) := by
  induction fields generalizing q pre with
  | nil =>
      have hcall := parseHeader_blank hq (.mk 0 (.inr rfl)) pre rest
      exact ⟨_, [cr, lf], rfl, rfl, headerFields_blank hcall rfl⟩
  | cons f fields ih =>
      obtain ⟨r', r'', hr'', hname, hcall, hread, hline⟩ :=
        f.call hq pre (fields.flatMap HeaderField.text ++ [cr, lf] ++ rest) m
      have hlength : (pre ++ f.lowered).length = (pre ++ f.written).length := by
        rw [List.length_append, List.length_append, f.length_lowered, f.length_written]
      obtain ⟨r₁, lines, hblank, hlines, hrest⟩ := ih hr'' (pre ++ f.written)
      have hfirst := headerFields_field hcall hname hline
      dsimp only at hfirst
      rw [hlength, hrest, hread] at hfirst
      refine ⟨r₁, f.written ++ lines, hblank, ?_, ?_⟩
      · rw [List.length_append, hlines, f.length_written, List.flatMap_cons, List.length_append]
        omega
      · rw [List.flatMap_cons, List.append_assoc f.text, List.append_assoc f.text, hfirst]
        simp [Except.map]

/-- The fields of a header are read one after the other, up to the blank line;
what is read is what was sent exactly if no value is empty. -/
theorem headerFields_read_iff (fields : List HeaderField) (hq : q.state = .hdBegin) (pre rest m : List UInt8) :
    ∃ read r' lines, r'.headerName.c = none ∧
      lines.length = (fields.flatMap HeaderField.text ++ [cr, lf]).length ∧
      headerFields q ⟨pre ++ (fields.flatMap HeaderField.text ++ [cr, lf] ++ rest), pre.length⟩ m =
        .ok (.ok, read, r', ⟨pre ++ lines ++ rest, (pre ++ lines).length⟩) ∧
      (read = fields.map HeaderField.read ↔ ∀ f ∈ fields, f.value ≠ []) := by
  obtain ⟨r', lines, hblank, hlines, hread⟩ := headerFields_got fields hq pre rest m
  refine ⟨_, r', lines, hblank, ?_, hread, ?_⟩
  · rw [hlines, List.length_append]
    rfl
  · rw [List.map_inj_left]
    exact forall₂_congr fun f _ => f.got_eq_iff

/-- A field with a value, and one without. -/
def hostField (value : List UInt8) (hvalue : ∀ c ∈ value, c ≠ cr ∧ c ≠ lf) (hhead : value.head? ≠ some space) :
    HeaderField where
  name := text ['H', 'o', 's', 't']
  blanks := 1
  value := value
  name_ok := ⟨by decide, List.all_eq_true.mp (by decide)⟩
  value_ok := hvalue
  value_head := hhead

/-- A header with one field, that has a value. -/
theorem headerFields_read_host :
    ∃ r' lines, r'.headerName.c = none ∧
      headerFields { state := .hdBegin } ⟨text ['H', 'o', 's', 't', ':', ' ', 'a', '\r', '\n', '\r', '\n'], 0⟩ [] =
        .ok (.ok, [(text ['h', 'o', 's', 't'], text ['a'])], r', ⟨lines, 11⟩) := by
  obtain ⟨read, r', lines, hblank, hlines, hread, hiff⟩ := @headerFields_read_iff { state := .hdBegin }
    [hostField (text ['a']) (List.forall_mem_singleton.mpr (by decide)) (by decide)] rfl [] [] []
  have hvalues : read = [(text ['h', 'o', 's', 't'], text ['a'])] := hiff.mpr (by decide)
  have hlength : lines.length = 11 := hlines
  simp only [hvalues, List.nil_append, List.append_nil, hlength] at hread
  exact ⟨r', lines, hblank, hread⟩

/-- A header with one field, that has none: what is read for it is the CR. -/
theorem headerFields_read_empty :
    ∃ r' lines, headerFields { state := .hdBegin }
          ⟨text ['H', 'o', 's', 't', ':', ' ', '\r', '\n', '\r', '\n'], 0⟩ [] =
        .ok (.ok, [(text ['h', 'o', 's', 't'], [cr])], r', ⟨lines, 10⟩) ∧
      [hostField [] (by simp) (by simp)].map HeaderField.read = [(text ['h', 'o', 's', 't'], [])] := by
  obtain ⟨r', lines, -, hlines, hread⟩ := @headerFields_got { state := .hdBegin }
    [hostField [] (by simp) (by simp)] rfl [] [] []
  have hlength : lines.length = 10 := hlines
  simp only [List.nil_append, List.append_nil, hlength] at hread
  exact ⟨r', lines, hread, rfl⟩

end

end PWebServer
