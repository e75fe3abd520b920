import PWebServer.Http.Unread

/-!
# Http.Unwritten

What is not read of a receive buffer: the bytes its memory held before it was
filled.

`http_proxy_pass` empties the buffer while a line of the header is read, and the
slices of the request keep pointing to where the line was.  A name ends in front
of what has been written so far whatever happens (`SlicesPlaced`); only a value
that had begun can be compared past it.
-/

namespace PWebServer

open Scan Lockstep

/-! ## memories -/

/-- Two memories are the same up to `k`. -/
def SameUpTo (k : Nat) (l l' : List UInt8) : Prop := ∀ i < k, l[i]? = l'[i]?

section

variable {k c n p q : Nat} {l l' m m' xs : List UInt8} {b b' : Buffer} {s : Str}

theorem SameUpTo.refl (k : Nat) (l : List UInt8) : SameUpTo k l l := fun _ _ => rfl

theorem sameUpTo_append (xs m m' : List UInt8) : SameUpTo xs.length (xs ++ m) (xs ++ m') := fun i hi => by
  rw [List.getElem?_append_left hi, List.getElem?_append_left hi]

theorem SameUpTo.cut (h : SameUpTo k l l') (hn : c + n ≤ k) : (l.drop c).take n = (l'.drop c).take n := by
  refine List.ext_getElem? fun i => ?_
  rw [List.getElem?_take, List.getElem?_take]
  split
  · rw [List.getElem?_drop, List.getElem?_drop]
    exact h _ (by omega)
  · rfl

theorem SameUpTo.set (h : SameUpTo k l l') (i : Nat) (x : UInt8) : SameUpTo k (l.set i x) (l'.set i x) := by
  intro j hj
  rw [List.getElem?_set, List.getElem?_set]
  split
  · next heq =>
    subst heq
    have hlen : i < l.length ↔ i < l'.length := by
      rw [← not_le, ← not_le, ← List.getElem?_eq_none_iff, ← List.getElem?_eq_none_iff, h i hj]
    simp only [hlen]
  · exact h j hj

/-- Bytes in front are rewritten. -/
theorem SameUpTo.over {bytes bytes' : List UInt8} (h : SameUpTo k (bytes ++ m) (bytes ++ m'))
    (hlen : bytes'.length = bytes.length) : SameUpTo k (bytes' ++ m) (bytes' ++ m') := by
  intro i hi
  by_cases hwritten : i < bytes'.length
  · exact sameUpTo_append bytes' _ _ i hwritten
  · have hold := h i hi
    rw [List.getElem?_append_right (by omega), List.getElem?_append_right (by omega), ← hlen] at hold
    rw [List.getElem?_append_right (by omega), List.getElem?_append_right (by omega)]
    exact hold

/-- Bytes that are received are written over the same places. -/
theorem SameUpTo.recv {bytes : List UInt8} (h : SameUpTo k (bytes ++ m) (bytes ++ m')) (xs : List UInt8) :
    SameUpTo (max k (bytes ++ xs).length) (bytes ++ xs ++ m.drop xs.length) (bytes ++ xs ++ m'.drop xs.length) := by
  intro i hi
  by_cases hwritten : i < (bytes ++ xs).length
  · exact sameUpTo_append (bytes ++ xs) _ _ i hwritten
  · have hlen : (bytes ++ xs).length = bytes.length + xs.length := List.length_append
    have hold := h i (by omega)
    rw [List.getElem?_append_right (by omega), List.getElem?_append_right (by omega)] at hold
    rw [List.getElem?_append_right (by omega), List.getElem?_append_right (by omega), List.getElem?_drop,
      List.getElem?_drop, hlen, show xs.length + (i - (bytes.length + xs.length)) = i - bytes.length by omega]
    exact hold

theorem SameUpTo.text (h : SameUpTo k l l') (hs : s.len ≤ 0 ∨ (s.c.getD 0 : Int) + s.len ≤ k) :
    s.text l = s.text l' := by
  unfold Str.text
  by_cases hlen : s.len ≤ 0
  · rw [Int.toNat_eq_zero.mpr hlen, List.take_zero, List.take_zero]
  · have hend := hs.resolve_left hlen
    exact h.cut (by omega)

/-- A comparison that finds a byte which is not of the word goes no further. -/
theorem SameUpTo.strncasecmpEq {word : List UInt8} {ch : UInt8} (h : SameUpTo k l l') (hp : p ≤ q) (hq : q < k)
    (hch : l[q]? = some ch) (hword : lowerCase ch ∉ word.map lowerCase) :
    strncasecmpEq word l p = strncasecmpEq word l' p := by
  have hsplit : ∀ {l : List UInt8}, l[q]? = some ch →
      l.drop p = (l.drop p).take (q - p) ++ ch :: l.drop (q + 1) := fun {l} hch => by
    obtain ⟨hlt, hget⟩ := List.getElem?_eq_some_iff.mp hch
    rw [← hget, ← List.drop_eq_getElem_cons hlt]
    conv_lhs => rw [← List.take_append_drop (q - p) (l.drop p), List.drop_drop, Nat.add_sub_cancel' hp]
  rw [strncasecmpEq_append (hsplit hch) hword, strncasecmpEq_append (hsplit ((h q hq).symm.trans hch)) hword,
    h.cut (by omega)]

/-! ## the end of a name -/

theorem terminate_memory (h : b.terminate m s = .ok (b', m')) :
    b'.bytes ++ m' = (b.bytes ++ m).set ((s.c.getD 0 : Int) + s.len).toNat 0 := by
  unfold Buffer.terminate at h
  cases hc : s.c with
  | none => rw [hc] at h; cases h
  | some c =>
      rw [hc] at h
      cases h
      exact List.take_append_drop _ _

theorem terminate_same (h : SameUpTo k (b.bytes ++ m) (b.bytes ++ m')) (hk : b.bytes.length ≤ k) (s : Str) :
    Agree (fun out out' => out.1 = out'.1 ∧ SameUpTo k (out.1.bytes ++ out.2) (out'.1.bytes ++ out'.2))
      (b.terminate m s) (b.terminate m' s) := by
  unfold Buffer.terminate
  cases s.c with
  | none => exact .error _
  | some c =>
      have hset := h.set ((c : Int) + s.len).toNat 0
      refine .ok ⟨?_, ?_⟩
      · have hbytes := hset.cut (c := 0) (n := b.bytes.length) (by omega)
        rw [List.drop_zero, List.drop_zero] at hbytes
        exact congrArg (fun bytes => { b with bytes := bytes }) hbytes
      · dsimp only
        rw [List.take_append_drop, List.take_append_drop]
        exact hset

end

/-! ## the slices of a line -/

/-- The slices of the line that is read: its name ends at `k` at the latest, and
its value begins before `n`. -/
structure SlicesWithin (k : Nat) (r : HttpRequest) (n : Nat) : Prop where
  name : r.headerName.len ≤ 0 ∨ (r.headerName.c.getD 0 : Int) + r.headerName.len ≤ k
  value : ∀ p, r.headerValue.c = some p → p < n

/-- The parser has read the `n` bytes in front of it, and stands between two
lines or in one whose slices are within. -/
def SlicesPlaced (k : Nat) (r : HttpRequest) (n : Nat) : Prop := r.state = .hdBegin ∨ SlicesWithin k r n

section

variable {k k' n n' : Nat} {r r' : HttpRequest} {b b' : Buffer} {before m m' : List UInt8} {ch ch' : UInt8} {ret : Ret}

theorem SlicesWithin.mono (h : SlicesWithin k r n) (hk : k ≤ k') (hn : n ≤ n') : SlicesWithin k' r n' :=
  ⟨h.name.imp_right fun hend => by omega, fun p hp => lt_of_lt_of_le (h.value p hp) hn⟩

theorem SlicesPlaced.mono (h : SlicesPlaced k r n) (hk : k ≤ k') (hn : n ≤ n') : SlicesPlaced k' r n' :=
  h.imp_right fun h => h.mono hk hn

/-- The buffer is emptied in a line that has no value yet. -/
theorem SlicesPlaced.clear (h : SlicesPlaced k r n) (hvalue : r.state = .hdBegin ∨ r.headerValue.c = none) :
    SlicesPlaced k r 0 := by
  rcases h with hbegin | h
  · exact .inl hbegin
  · refine hvalue.imp_right fun hnone => ⟨h.name, fun p hp => ?_⟩
    rw [hnone] at hp
    cases hp

/-- One byte more. -/
theorem headerBody_go (h : SlicesPlaced k r before.length) (hk : before.length ≤ k)
    (hstep : headerBody r before ch = (ch', .go r')) : SlicesPlaced k r' (before.length + 1) := by
  unfold headerBody at hstep
  cases hst : r.state with
  | hdBegin =>
      simp only [hst] at hstep
      split_ifs at hstep <;> cases hstep
      · exact .inr ⟨.inl (le_refl 0), fun p hp => by cases hp⟩
      · exact .inr ⟨.inl (le_refl 0), fun p hp => by cases hp⟩
      · exact .inl rfl
  | hdName =>
      have hw := h.resolve_left (by simp [hst])
      simp only [hst] at hstep
      split_ifs at hstep <;> cases hstep
      · exact .inr (hw.mono (le_refl k) (Nat.le_succ _))
      · refine .inr ⟨.inr ?_, (hw.mono (le_refl k) (Nat.le_succ _)).value⟩
        simp only [Str.upTo]
        omega
      · exact .inr ⟨hw.name, (hw.mono (le_refl k) (Nat.le_succ _)).value⟩
      · exact .inr ⟨hw.name, (hw.mono (le_refl k) (Nat.le_succ _)).value⟩
  | hdBeforeValue | hdColon =>
      have hw := h.resolve_left (by simp [hst])
      simp only [hst] at hstep
      split_ifs at hstep <;> cases hstep
      · exact .inr ⟨hw.name, (hw.mono (le_refl k) (Nat.le_succ _)).value⟩
      · refine .inr ⟨hw.name, fun p hp => ?_⟩
        obtain rfl := Option.some.inj hp
        exact Nat.lt_succ_self _
  | hdValue =>
      have hw := h.resolve_left (by simp [hst])
      simp only [hst] at hstep
      split_ifs at hstep <;> cases hstep
      · exact .inr ⟨hw.name, (hw.mono (le_refl k) (Nat.le_succ _)).value⟩
      · exact .inr (hw.mono (le_refl k) (Nat.le_succ _))
  | hdAlmostDone =>
      simp only [hst] at hstep
      split_ifs at hstep <;> cases hstep
  | _ =>
      simp only [hst] at hstep
      cases hstep

/-- A line ends with a newline. -/
theorem headerBody_ok (h : SlicesPlaced k r before.length) (hstep : headerBody r before ch = (ch', .stop .ok r')) :
    SlicesWithin k r' (before.length + 1) ∧ ch' = lf := by
  unfold headerBody at hstep
  cases hst : r.state with
  | hdBegin =>
      simp only [hst] at hstep
      split_ifs at hstep with _ _ hlf <;> cases hstep
      exact ⟨⟨.inl (le_refl 0), fun p hp => by cases hp⟩, hlf⟩
  | hdValue =>
      have hw := h.resolve_left (by simp [hst])
      simp only [hst] at hstep
      split_ifs at hstep with _ hlf <;> cases hstep
      exact ⟨⟨hw.name, (hw.mono (le_refl k) (Nat.le_succ _)).value⟩, hlf⟩
  | hdAlmostDone =>
      have hw := h.resolve_left (by simp [hst])
      simp only [hst] at hstep
      split_ifs at hstep with hlf <;> cases hstep
      exact ⟨hw.mono (le_refl k) (Nat.le_succ _), hlf⟩
  | hdName | hdBeforeValue | hdColon =>
      simp only [hst] at hstep
      split_ifs at hstep <;> cases hstep
  | _ =>
      simp only [hst] at hstep
      cases hstep

/-- What a call of `parse_header` leaves of the slices. -/
theorem parseHeader_placed (h : SlicesPlaced k r b.begin) (hb : b.begin ≤ b.bytes.length) (hk : b.bytes.length ≤ k)
    (hcall : parseHeader r b = (ret, r', b')) :
    (ret = .again → SlicesPlaced k r' b'.begin) ∧
      (ret = .ok → SlicesWithin k r' b'.begin ∧ ∃ q, b'.begin = q + 1 ∧ b'.bytes[q]? = some lf) := by
  have hfirst : (b.bytes.take b.begin).length ≤ k → SlicesPlaced k r (b.bytes.take b.begin).length := fun _ => by
    rw [List.length_take, Nat.min_eq_left hb]
    exact h
  have hlength := scan_length headerBody (b.bytes.drop b.begin) (b.bytes.take b.begin) r
  have hwhole : (b.bytes.take b.begin).length + (b.bytes.drop b.begin).length = b.bytes.length := by
    rw [← List.length_append, List.take_append_drop]
  rw [hwhole] at hlength
  obtain ⟨hend, hleft⟩ := scan_rule headerBody (fun _ before r => before.length ≤ k → SlicesPlaced k r before.length)
    (fun hplaced hstep hlen => by
      rw [List.length_append, List.length_singleton] at hlen ⊢
      exact headerBody_go (hplaced (by omega)) (by omega) hstep)
    (b.bytes.drop b.begin) [] (b.bytes.take b.begin) r hfirst
  unfold parseHeader headerResult at hcall
  generalize scan headerBody (b.bytes.take b.begin) (b.bytes.drop b.begin) r = out at hcall hlength hend hleft
  obtain ⟨before, after, s, _ | res⟩ := out
  · cases hcall
    refine ⟨fun _ => ?_, fun heq => by cases heq⟩
    refine (hend rfl (by omega)).mono (le_refl k) ?_
    rw [List.length_append]
    exact Nat.le_add_right _ _
  · obtain ⟨read, s', a, a', rest, -, hplaced, hbody, rfl⟩ := hleft res rfl
    cases res with
    | ok =>
        cases hcall
        refine ⟨fun heq => (by cases heq), fun _ => ?_⟩
        have hok := headerBody_ok (hplaced (by omega)) hbody
        refine ⟨⟨hok.1.name, hok.1.value⟩, before.length, rfl, ?_⟩
        rw [List.getElem?_append_right (le_refl _), Nat.sub_self, hok.2]
        rfl
    | again => exact absurd (headerBody_stop hbody) (by simp)
    | error | invalidRequest =>
        cases hcall
        exact ⟨fun heq => (by cases heq), fun heq => by cases heq⟩

/-- Over a buffer with the one memory behind it or the other, the parser of the
header reads the same: up to `k` the memories are the same. -/
structure SameRead (k : Nat) (r : HttpRequest) (b : Buffer) (m m' : List UInt8) : Prop where
  begins : b.begin ≤ b.bytes.length
  written : b.bytes.length ≤ k
  memory : SameUpTo k (b.bytes ++ m) (b.bytes ++ m')
  placed : SlicesPlaced k r b.begin

theorem SameRead.start (hbegin : r.state = .hdBegin) (hb : b.begin ≤ b.bytes.length) (m m' : List UInt8) :
    SameRead b.bytes.length r b m m' :=
  ⟨hb, le_refl _, sameUpTo_append b.bytes m m', .inl hbegin⟩

/-- Bytes are received. -/
theorem SameRead.recv (h : SameRead k r b m m') (xs : List UInt8) :
    ∃ k', SameRead k' r { b with bytes := b.bytes ++ xs } (m.drop xs.length) (m'.drop xs.length) := by
  refine ⟨_, ?_, le_max_right k _, h.memory.recv xs, h.placed.mono (le_max_left k _) (le_refl _)⟩
  exact h.begins.trans (by rw [List.length_append]; exact Nat.le_add_right _ _)

/-- Bytes are rewritten, or passed over. -/
theorem SameRead.over (h : SameRead k r b m m') (hlen : b'.bytes.length = b.bytes.length) (hle : b.begin ≤ b'.begin)
    (hb : b'.begin ≤ b'.bytes.length) : SameRead k r b' m m' :=
  ⟨hb, hlen.trans_le h.written, h.memory.over hlen, h.placed.mono (le_refl k) hle⟩

/-- The buffer is emptied in a line that has no value yet, or between two. -/
theorem SameRead.clear (h : SameRead k r b m m') (hvalue : r.state = .hdBegin ∨ r.headerValue.c = none) :
    SameRead k r {} (b.bytes ++ m) (b.bytes ++ m') :=
  ⟨le_refl 0, Nat.zero_le k, h.memory, h.placed.clear hvalue⟩

/-! ## lines -/

theorem headerParser_same {l l' : List UInt8} {q : Nat} (h : SameUpTo k l l') (hw : SlicesWithin k r (q + 1)) (hq : q < k)
    (hch : l[q]? = some ch) (hend : ch = lf ∨ ch = 0) (offset : HeaderOffset) :
    headerParser r offset l = headerParser r offset l' := by
  cases offset with
  | connection =>
      unfold headerParser headerHandleConnection headerHandleGeneric
      dsimp only
      cases hc : r.headerValue.c with
      | none => rfl
      | some p =>
          have hp : p ≤ q := Nat.lt_succ_iff.mp (hw.value p hc)
          have hkeep : strncasecmpEq keepAliveText l p = strncasecmpEq keepAliveText l' p :=
            h.strncasecmpEq hp hq hch (by rcases hend with rfl | rfl <;> decide)
          have hclose : strncasecmpEq closeText l p = strncasecmpEq closeText l' p :=
            h.strncasecmpEq hp hq hch (by rcases hend with rfl | rfl <;> decide)
          simp only [deref_some, bind, Except.bind, hkeep, hclose]
  | accept | cookie | date => rfl

/-- A line that has been read is handled the same way. -/
theorem handleHeader_same {q : Nat} (h : SameUpTo k (b.bytes ++ m) (b.bytes ++ m')) (hk : b.bytes.length ≤ k)
    (hw : SlicesWithin k r (q + 1)) (hlf : b.bytes[q]? = some lf) :
    Agree (fun out out' => out.1 = out'.1 ∧ out.2.1 = out'.2.1 ∧
        SameUpTo k (out.2.1.bytes ++ out.2.2) (out'.2.1.bytes ++ out'.2.2))
      (handleHeader r b m) (handleHeader r b m') := by
  unfold handleHeader
  refine Agree.ite Iff.rfl (fun _ => .error _) fun _ => ?_
  rw [h.text hw.name]
  have hterm := terminate_same h hk r.headerName
  refine (hterm.and (fun _ => terminate_memory) fun _ _ => trivial).bind fun out out' hout => ?_
  obtain ⟨⟨hb, hsame⟩, hmemory, -⟩ := hout
  cases headerFind (r.headerName.text (b.bytes ++ m')) with
  | none => exact .ok ⟨rfl, hb, hsame⟩
  | some offset =>
      have hq : q < b.bytes.length := (List.getElem?_eq_some_iff.mp hlf).1
      -- the newline, or the end of the name if that is written over it
      have hch : ∃ ch, (out.1.bytes ++ out.2)[q]? = some ch ∧ (ch = lf ∨ ch = 0) := by
        have hold : (b.bytes ++ m)[q]? = some lf := (List.getElem?_append_left hq).trans hlf
        rw [hmemory, List.getElem?_set]
        split
        · next heq =>
          refine ⟨0, ?_, .inr rfl⟩
          rw [if_pos]
          rw [heq]
          exact (List.getElem?_eq_some_iff.mp hold).1
        · exact ⟨lf, hold, .inl rfl⟩
      obtain ⟨ch, hch, hend⟩ := hch
      dsimp only
      rw [headerParser_same hsame hw (by omega) hch hend]
      exact Agree.bind_same fun r' => .ok ⟨rfl, hb, hsame⟩

/-! ## the loop -/

/-- What is the same of two ends of the loop. -/
structure HeadersConn.Same (k : Nat) (d d' : HeadersConn) : Prop where
  status : d.status = d'.status
  r : d.r = d'.r
  b : d.b = d'.b
  read : d'.r.responseDone = false → d'.status ≠ .closed → SameRead k d'.r d'.b d.behind d'.behind

/-- What the loop does to a line that is complete. -/
theorem SameRead.line (h : SameRead k r b m m') (hcall : parseHeader r b = (.ok, r', b')) :
    r'.state = .hdBegin ∧ b'.begin ≤ b'.bytes.length ∧ b'.bytes.length ≤ k ∧
      SameUpTo k (b'.bytes ++ m) (b'.bytes ++ m') ∧
      Agree (fun out out' => out.1 = out'.1 ∧ out.2.1 = out'.2.1 ∧
          SameUpTo k (out.2.1.bytes ++ out.2.2) (out'.2.1.bytes ++ out'.2.2))
        (handleHeader r' b' m) (handleHeader r' b' m') := by
  have hparsed := parseHeader_parsed hcall
  have hk := hparsed.length.trans_le h.written
  obtain ⟨hw, q, hq, hlf⟩ := (parseHeader_placed h.placed h.begins h.written hcall).2 rfl
  rw [hq] at hw
  have hmemory := h.memory.over hparsed.length
  exact ⟨parseHeader_begins hcall, hparsed.begins h.begins, hk, hmemory, handleHeader_same hmemory hk hw hlf⟩

theorem headersLoop_same (h : r.responseDone = false → SameRead k r b m m') :
    Agree (HeadersConn.Same k) (headersLoop r b m) (headersLoop r b m') := by
  induction r, b, m using headersLoop.induct generalizing m' with
  | case1 r b m hdone =>
      rw [headersLoop_done hdone, headersLoop_done hdone]
      exact .ok ⟨rfl, rfl, rfl, fun hnot => absurd hdone (Bool.eq_false_iff.mp hnot)⟩
  | case2 r b m hdone r₁ b₁ hcall hname =>
      replace hdone := Bool.eq_false_iff.mpr hdone
      obtain ⟨hbegin, hb, hk, hmemory, -⟩ := (h hdone).line hcall
      rw [headersLoop_blank hdone hcall hname, headersLoop_blank hdone hcall hname]
      exact .ok ⟨rfl, rfl, rfl, fun _ _ => ⟨hb, hk, hmemory, .inl hbegin⟩⟩
  | case3 r b m hdone r₁ b₁ hcall hname f hline =>
      replace hdone := Bool.eq_false_iff.mpr hdone
      obtain ⟨-, -, -, -, hsame⟩ := (h hdone).line hcall
      rw [hline] at hsame
      rw [headersLoop_eq hdone, hcall, headersLoop_eq hdone, hcall]
      dsimp only
      rw [if_neg hname, if_neg hname, hline]
      generalize handleHeader r₁ b₁ m' = out at hsame ⊢
      cases hsame
      exact .error f
  | case4 r b m hdone r₁ b₁ hcall hname r₂ b₂ m₂ hline ih =>
      replace hdone := Bool.eq_false_iff.mpr hdone
      obtain ⟨hbegin, hb, hk, -, hsame⟩ := (h hdone).line hcall
      have hbuffer := handleHeader_buffer hline
      rw [headersLoop_line hdone hcall hname hline]
      rw [hline] at hsame
      cases hline' : handleHeader r₁ b₁ m' with
      | error f =>
          rw [hline'] at hsame
          cases hsame
      | ok out =>
          obtain ⟨r₂', b₂', m₂'⟩ := out
          rw [hline'] at hsame
          cases hsame with
          | ok hsame =>
              obtain ⟨rfl, rfl, hmemory⟩ := hsame
              rw [headersLoop_line hdone hcall hname hline']
              refine ih fun _ => ⟨?_, ?_, hmemory, .inl ((handleHeader_state hline).trans hbegin)⟩
              · rw [hbuffer.1, hbuffer.2]
                exact hb
              · rw [hbuffer.2]
                exact hk
  | case5 r b m hdone r₁ b₁ hcall =>
      replace hdone := Bool.eq_false_iff.mpr hdone
      obtain ⟨hb, hk, hmemory, hplaced⟩ := h hdone
      have hparsed := parseHeader_parsed hcall
      have hplaced₁ := (parseHeader_placed hplaced hb hk hcall).1 rfl
      rw [headersLoop_again hdone hcall, headersLoop_again hdone hcall]
      refine .ok ⟨rfl, rfl, rfl, fun _ _ => ⟨hparsed.begins hb, hparsed.length.trans_le hk, ?_, hplaced₁⟩⟩
      exact hmemory.over hparsed.length
  | case6 r b m hdone ret r₁ b₁ hok hagain hcall =>
      replace hdone := Bool.eq_false_iff.mpr hdone
      have hparsed := parseHeader_parsed hcall
      have hterm := terminate_same ((h hdone).memory.over hparsed.length) (hparsed.length.trans_le (h hdone).written)
        r₁.headerName
      rw [headersLoop_eq hdone, hcall, headersLoop_eq hdone, hcall]
      cases ret with
      | ok => exact absurd rfl hok
      | again => exact absurd rfl hagain
      | error | invalidRequest =>
          dsimp only
          generalize b₁.terminate m r₁.headerName = out at hterm ⊢
          generalize b₁.terminate m' r₁.headerName = out' at hterm ⊢
          cases hterm with
          | error f => exact .error f
          | ok hterm => exact .ok ⟨rfl, rfl, hterm.1, fun _ hnot => absurd rfl hnot⟩

end

end PWebServer
