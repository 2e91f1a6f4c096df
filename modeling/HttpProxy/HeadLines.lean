import HttpProxy.ResponseCuts
import HttpProxy.StartLineForm

/-!
# The lines of a head

A head is taken apart at its line ends (`crlfLines`). The lines behind the first are its fields: what a field
says is read off its own line, from the name at the line's beginning and the value behind it.
-/

namespace HttpProxy

/-! ## Lines -/

/-- A byte in front of the first line. -/
def consLine (c : UInt8) : List (List UInt8) → List (List UInt8)
  | [] => [[c]]
  | t :: ts => (c :: t) :: ts

/-- What stands in front of, between and behind the line ends. -/
def crlfLines : List UInt8 → List (List UInt8)
  | [] => [[]]
  | [c] => [[c]]
  | c :: d :: l => if c = CR ∧ d = LF then [] :: crlfLines l else consLine c (crlfLines (d :: l))

theorem consLine_ne_nil (c : UInt8) (ts : List (List UInt8)) : consLine c ts ≠ [] := by
  cases ts <;> exact List.cons_ne_nil _ _

theorem crlfLines_ne_nil (l : List UInt8) : crlfLines l ≠ [] := by
  unfold crlfLines
  split
  · exact List.cons_ne_nil _ _
  · exact List.cons_ne_nil _ _
  · split
    · exact List.cons_ne_nil _ _
    · exact consLine_ne_nil _ _

/-- A byte in front of lines is in front of the first. -/
theorem consLine_append (c : UInt8) {ts : List (List UInt8)} (h : ts ≠ []) (us : List (List UInt8)) :
    consLine c (ts ++ us) = consLine c ts ++ us := by
  cases ts with
  | nil => exact absurd rfl h
  | cons t ts => rfl

/-- The lines on both sides of a line end. -/
theorem crlfLines_append (g x : List UInt8) :
    crlfLines (g ++ CR :: LF :: x) = crlfLines g ++ crlfLines x := by
  fun_induction crlfLines g with
  | case1 => rfl
  | case2 c =>
    change (if c = CR ∧ CR = LF then _ else consLine c (crlfLines (CR :: LF :: x))) = _
    rw [if_neg fun h => absurd h.2 (by decide)]
    rfl
  | case3 c d l h ih =>
    change (if c = CR ∧ d = LF then [] :: crlfLines (l ++ CR :: LF :: x) else _) = _
    rw [if_pos h, ih]
    rfl
  | case4 c d l h ih =>
    change (if c = CR ∧ d = LF then _ else consLine c (crlfLines (d :: l ++ CR :: LF :: x))) = _
    rw [if_neg h, ih, consLine_append c (crlfLines_ne_nil _)]

/-- The first line begins like the bytes do. -/
theorem head_crlfLines {d : UInt8} {l t : List UInt8} {ts : List (List UInt8)}
    (h : crlfLines (d :: l) = t :: ts) : t = [] ∨ ∃ u, t = d :: u := by
  cases l with
  | nil => exact .inr ⟨[], (List.cons.inj h).1.symm⟩
  | cons e l =>
    change (if d = CR ∧ e = LF then _ else consLine d (crlfLines (e :: l))) = _ at h
    split at h
    · exact .inl (List.cons.inj h).1.symm
    · generalize crlfLines (e :: l) = us at h
      cases us with
      | nil => exact .inr ⟨[], (List.cons.inj h).1.symm⟩
      | cons u us => exact .inr ⟨u, (List.cons.inj h).1.symm⟩

/-- Inside a line there is no line end. -/
theorem not_crlf_of_mem {g t : List UInt8} (ht : t ∈ crlfLines g) : ¬[CR, LF] <:+: t := by
  fun_induction crlfLines g generalizing t with
  | case1 =>
    rw [List.mem_singleton.mp ht]
    decide
  | case2 c =>
    rw [List.mem_singleton.mp ht]
    intro h
    have hlen := h.length_le
    simp only [List.length_cons, List.length_nil] at hlen
    omega
  | case3 c d l h ih =>
    rcases List.mem_cons.mp ht with rfl | ht
    · decide
    · exact ih ht
  | case4 c d l h ih =>
    cases hlines : crlfLines (d :: l) with
    | nil => exact absurd hlines (crlfLines_ne_nil _)
    | cons u us =>
      rw [hlines] at ht ih
      rcases List.mem_cons.mp ht with rfl | ht
      · intro hin
        rcases List.infix_cons_iff.mp hin with hpre | hin
        · obtain ⟨rfl, hlf⟩ := List.cons_prefix_cons.mp hpre
          rcases head_crlfLines hlines with rfl | ⟨w, rfl⟩
          · exact absurd hlf.length_le (by decide)
          · exact h ⟨rfl, (List.cons_prefix_cons.mp hlf).1.symm⟩
        · exact ih List.mem_cons_self hin
      · exact ih (List.mem_cons_of_mem u ht)

/-- Without a line end there is one line. -/
theorem crlfLines_of_not {t : List UInt8} (h : ¬[CR, LF] <:+: t) : crlfLines t = [t] := by
  fun_induction crlfLines t with
  | case1 => rfl
  | case2 c => rfl
  | case3 c d l hcd ih =>
    obtain ⟨rfl, rfl⟩ := hcd
    exact absurd (List.prefix_append [CR, LF] l).isInfix h
  | case4 c d l hcd ih =>
    rw [ih fun hin => h (hin.trans (List.suffix_cons c (d :: l)).isInfix)]
    rfl

/-- A line end behind bytes ends the last of their lines. -/
theorem flatMap_crlfLines (g : List UInt8) :
    (crlfLines g).flatMap (· ++ [CR, LF]) = g ++ [CR, LF] := by
  fun_induction crlfLines g with
  | case1 => rfl
  | case2 c => rfl
  | case3 c d l h ih =>
    obtain ⟨rfl, rfl⟩ := h
    rw [List.flatMap_cons, ih]
    rfl
  | case4 c d l h ih =>
    cases hlines : crlfLines (d :: l) with
    | nil => exact absurd hlines (crlfLines_ne_nil _)
    | cons u us =>
      rw [hlines, List.flatMap_cons] at ih
      rw [consLine, List.flatMap_cons, List.cons_append, List.cons_append, ih]
      rfl

/-- A line end adds the line that begins behind it. -/
theorem crlfLines_lineEnd (g : List UInt8) : crlfLines (g ++ [CR, LF]) = crlfLines g ++ [[]] :=
  crlfLines_append g []

/-! ## Fields -/

/-- The lines of a head behind the first. -/
def fieldLines (l : List UInt8) : List (List UInt8) := (crlfLines l).tail

/-- A line begins with the name of a field. -/
def IsField (f : HeaderField) (t : List UInt8) : Prop := f.name <+: t.map toupper

instance (f : HeaderField) (t : List UInt8) : Decidable (IsField f t) :=
  inferInstanceAs (Decidable (_ <+: _))

/-- What stands behind the name and the blanks. -/
def fieldValue (f : HeaderField) (t : List UInt8) : List UInt8 := (t.drop f.name.length).dropWhile isBlank

/-- The length a line gives: the number its value begins with, if it is a `Content-Length`. -/
def lineLength (t : List UInt8) : Option Int :=
  let digits := (fieldValue .contentLength t).takeWhile isdigit
  if IsField .contentLength t ∧ digits ≠ [] then some (Radix.dec.valueOf digits) else none

/-- The last length that a head gives. -/
def lastLength (l : List UInt8) : Option Int := ((fieldLines l).filterMap lineLength).getLast?

/-- A line is a `Transfer-Encoding` that begins with `chunked`. -/
def IsChunkedLine (t : List UInt8) : Prop :=
  IsField .transferEncoding t ∧ lit "CHUNKED" <+: (fieldValue .transferEncoding t).map toupper

instance (t : List UInt8) : Decidable (IsChunkedLine t) := inferInstanceAs (Decidable (_ ∧ _))

/-- A line so far is the name of a field and blanks behind it. -/
def OpensField (f : HeaderField) (t : List UInt8) : Prop :=
  IsField f t ∧ ∀ c ∈ t.drop f.name.length, isBlank c = true

instance (f : HeaderField) (t : List UInt8) : Decidable (OpensField f t) :=
  inferInstanceAs (Decidable (_ ∧ ∀ c ∈ _, _))

section Field

variable {f : HeaderField} {t u w : List UInt8}

/-- What goes on behind a field's name is a field. -/
theorem IsField.append (h : IsField f t) (w : List UInt8) : IsField f (t ++ w) := by
  unfold IsField
  rw [List.map_append]
  exact h.trans (List.prefix_append _ _)

/-- A field is no shorter than its name. -/
theorem IsField.length_le (h : IsField f t) : f.name.length ≤ t.length := by
  have hlen := List.IsPrefix.length_le h
  rwa [List.length_map] at hlen

/-- No name is empty, and none has a CR or a LF in it. -/
theorem HeaderField.name_spec (f : HeaderField) : f.name ≠ [] ∧ CR ∉ f.name ∧ LF ∉ f.name := by
  cases f <;> decide

/-- What does not reach over a CR stands in front of it. -/
theorem prefix_of_cr {p t : List UInt8} (hp : CR ∉ p) (h : p <+: (t ++ [CR, LF]).map toupper) :
    p <+: t.map toupper := by
  rw [List.map_append] at h
  rcases Nat.le_total p.length (t.map toupper).length with hle | hle
  · exact List.prefix_of_prefix_length_le h (List.prefix_append _ _) hle
  · obtain ⟨w, rfl⟩ := List.prefix_of_prefix_length_le (List.prefix_append _ _) h hle
    rw [List.prefix_append_right_inj] at h
    cases w with
    | nil => exact ⟨[], by rw [List.append_nil, List.append_nil]⟩
    | cons c w =>
      obtain ⟨rfl, -⟩ := List.cons_prefix_cons.mp h
      exact absurd (List.mem_append_right _ List.mem_cons_self) hp

/-- The line end is no part of a name. -/
theorem IsField.of_lineEnd (h : IsField f (t ++ [CR, LF])) : IsField f t :=
  prefix_of_cr f.name_spec.2.1 h

/-- The line end is behind the value. -/
theorem fieldValue_append (h : IsField f t) (w : List UInt8) :
    fieldValue f (t ++ w) = (t.drop f.name.length ++ w).dropWhile isBlank := by
  unfold fieldValue
  rw [List.drop_append_of_le_length h.length_le]

/-- Behind a name and blanks the value is what follows them. -/
theorem OpensField.fieldValue_append (h : OpensField f t) (w : List UInt8) :
    fieldValue f (t ++ w) = w.dropWhile isBlank := by
  rw [HttpProxy.fieldValue_append h.1, List.dropWhile_append, List.dropWhile_eq_nil_iff.mpr h.2]
  rfl

/-- What goes on behind the blanks is blanks as long as it opens the field. -/
theorem OpensField.isBlank_of_mem (h : OpensField f (t ++ w)) (hf : IsField f t) : ∀ c ∈ w, isBlank c = true := by
  intro c hc
  refine h.2 c ?_
  rw [List.drop_append_of_le_length hf.length_le]
  exact List.mem_append_right _ hc

/-- A chunked line stays one. -/
theorem IsChunkedLine.append (h : IsChunkedLine t) (w : List UInt8) : IsChunkedLine (t ++ w) := by
  obtain ⟨hfield, hvalue⟩ := h
  refine ⟨hfield.append w, ?_⟩
  have hne : (t.drop HeaderField.transferEncoding.name.length).dropWhile isBlank ≠ [] := by
    intro hnil
    unfold fieldValue at hvalue
    rw [hnil] at hvalue
    exact absurd hvalue.length_le (by decide)
  rw [fieldValue_append hfield, dropWhile_append_of_ne_nil hne, List.map_append]
  exact hvalue.trans (List.prefix_append _ _)

/-- The line end is no part of a chunked line. -/
theorem IsChunkedLine.of_lineEnd (h : IsChunkedLine (t ++ [CR, LF])) : IsChunkedLine t := by
  obtain ⟨hfield, hvalue⟩ := h
  have hfield' := hfield.of_lineEnd
  refine ⟨hfield', ?_⟩
  rw [fieldValue_append hfield'] at hvalue
  have hdrop : ∀ l : List UInt8, (l ++ [CR, LF]).dropWhile isBlank = l.dropWhile isBlank ++ [CR, LF] := by
    intro l
    induction l with
    | nil => rfl
    | cons c l ih =>
      rw [List.cons_append, List.dropWhile_cons, List.dropWhile_cons, ih]
      split <;> rfl
  rw [hdrop] at hvalue
  exact prefix_of_cr (by decide) hvalue

end Field

/-! ## The parts of a length -/

/-- A `Content-Length` line in front of `rest`: its name, the blanks, the digits, if any, and the first byte
that is no more of them. -/
structure LengthParts (line : List UInt8) where
  name : List UInt8
  blanks : List UInt8
  digits : List UInt8
  next : UInt8
  rest : List UInt8
  line_eq : line = (name ++ blanks) ++ ((digits ++ [next]) ++ rest)
  name_eq : name.map toupper = HeaderField.contentLength.name
  allBlank : ∀ c ∈ blanks, isBlank c = true
  allDigits : ∀ c ∈ digits, isdigit c = true
  next_ok : isdigit next = false ∧ (digits = [] → isBlank next = false)

namespace LengthParts

variable {t line : List UInt8}

/-- What is read behind the blanks no longer opens the field. -/
theorem not_opens (p : LengthParts line) (u : List UInt8) :
    ¬OpensField .contentLength ((p.name ++ p.blanks) ++ ((p.digits ++ [p.next]) ++ u)) := by
  intro hopens
  have hfield : IsField .contentLength (p.name ++ p.blanks) :=
    IsField.append (by unfold IsField; rw [p.name_eq]) p.blanks
  have hall := hopens.isBlank_of_mem hfield
  by_cases hnil : p.digits = []
  · have hblank := hall p.next (by simp only [List.mem_append, List.mem_cons, true_or, or_true])
    exact Bool.false_ne_true ((p.next_ok.2 hnil).symm.trans hblank)
  · obtain ⟨c, hc⟩ := List.exists_mem_of_ne_nil _ hnil
    have hblank := hall c (by simp only [List.mem_append, hc, true_or])
    exact Bool.false_ne_true ((not_isdigit_of_isBlank hblank).symm.trans (p.allDigits c hc))

end LengthParts

/-- The parts of a line that is a `Content-Length`. -/
theorem exists_lengthParts {t : List UInt8} (h : IsField .contentLength t) :
    ∃ p : LengthParts (t ++ [CR, LF]),
      lineLength t = if p.digits = [] then none else some (Radix.dec.valueOf p.digits) := by
  obtain ⟨z, hz⟩ := id h
  obtain ⟨name, v, rfl, hname, -⟩ := List.map_eq_append_iff.mp hz.symm
  have hlen : HeaderField.contentLength.name.length = name.length := by rw [← hname, List.length_map]
  have hvalue : fieldValue .contentLength (name ++ v) = v.dropWhile isBlank := by
    unfold fieldValue
    rw [hlen, List.drop_left]
  obtain ⟨digits, hdigits⟩ : ∃ digits, (v.dropWhile isBlank).takeWhile isdigit = digits := ⟨_, rfl⟩
  obtain ⟨s, hs⟩ : ∃ s, (v.dropWhile isBlank).dropWhile isdigit = s := ⟨_, rfl⟩
  have hcut : v.dropWhile isBlank = digits ++ s := by rw [← hdigits, ← hs, List.takeWhile_append_dropWhile]
  -- The byte behind the digits is one of the line, or the CR.
  obtain ⟨next, rest, hnext, hok⟩ : ∃ next rest, s ++ [CR, LF] = next :: rest ∧
      isdigit next = false ∧ (digits = [] → isBlank next = false) := by
    cases s with
    | nil => exact ⟨CR, [LF], rfl, by decide, fun _ => by decide⟩
    | cons c s =>
      refine ⟨c, s ++ [CR, LF], rfl, dropWhile_head isdigit _ c (by rw [hs]; rfl), fun hnil => ?_⟩
      exact dropWhile_head isBlank v c (by rw [hcut, hnil]; rfl)
  have hline : name ++ v ++ [CR, LF] = (name ++ v.takeWhile isBlank) ++ ((digits ++ [next]) ++ rest) := by
    rw [List.append_assoc digits, List.singleton_append, ← hnext, ← List.append_assoc digits, ← hcut]
    calc name ++ v ++ [CR, LF] = name ++ (v.takeWhile isBlank ++ v.dropWhile isBlank) ++ [CR, LF] := by
          rw [List.takeWhile_append_dropWhile]
      _ = name ++ v.takeWhile isBlank ++ (v.dropWhile isBlank ++ [CR, LF]) := by simp only [List.append_assoc]
  refine ⟨⟨name, v.takeWhile isBlank, digits, next, rest, hline, hname, takeWhile_all isBlank v,
    hdigits ▸ takeWhile_all isdigit _, hok⟩, ?_⟩
  have hlength : lineLength (name ++ v) =
      if IsField .contentLength (name ++ v) ∧ digits ≠ [] then some (Radix.dec.valueOf digits) else none := by
    unfold lineLength
    rw [hvalue, hdigits]
  dsimp only
  rw [hlength]
  by_cases hnil : digits = []
  · rw [if_pos hnil, if_neg fun h => h.2 hnil]
  · rw [if_neg hnil, if_pos ⟨h, hnil⟩]

/-! ## The line that is being read -/

section LastLine

variable {f : HeaderField} {t u g : List UInt8}

/-- In front of the end of a line there is no line end. -/
theorem not_crlf_of_front (ht : ¬[CR, LF] <:+: t) (hu : u <+: t ++ [CR]) : ¬[CR, LF] <:+: u := by
  intro hin
  rcases List.infix_concat_iff.mp (hin.trans hu.isInfix) with hend | hin
  · obtain ⟨s, hs⟩ := hend
    have hlast := congrArg List.getLast? hs
    rw [List.getLast?_append, List.getLast?_concat] at hlast
    cases hlast
  · exact ht hin

/-- The last line of what was read in a line is that, or empty behind its end. -/
theorem getLast?_crlfLines (ht : ¬[CR, LF] <:+: t) (hu : u <+: t ++ [CR, LF]) :
    (crlfLines u).getLast? = some u ∨ (crlfLines u).getLast? = some [] := by
  rw [show t ++ [CR, LF] = t ++ [CR] ++ [LF] by rw [List.append_assoc]; rfl] at hu
  rcases List.prefix_concat_iff.mp hu with rfl | hu
  · rw [List.append_assoc]
    exact .inr (by rw [List.singleton_append, crlfLines_lineEnd, List.getLast?_concat])
  · rw [crlfLines_of_not (not_crlf_of_front ht hu)]
    exact .inl rfl

/-- No field is empty. -/
theorem not_opensField_nil (f : HeaderField) : ¬OpensField f [] := fun h =>
  f.name_spec.1 (List.prefix_nil.mp h.1)

/-- The first line opens no field. -/
theorem not_opens_start (ht : ¬[CR, LF] <:+: t) (hu : u <+: t ++ [CR, LF]) :
    ¬∃ v ∈ (fieldLines u).getLast?, OpensField f v := by
  rintro ⟨v, hv, hopens⟩
  rw [show t ++ [CR, LF] = t ++ [CR] ++ [LF] by rw [List.append_assoc]; rfl] at hu
  unfold fieldLines at hv
  rcases List.prefix_concat_iff.mp hu with rfl | hu
  · rw [List.append_assoc, List.singleton_append, crlfLines_lineEnd, crlfLines_of_not ht] at hv
    obtain rfl : [] = v := Option.some.inj hv
    exact not_opensField_nil f hopens
  · rw [crlfLines_of_not (not_crlf_of_front ht hu)] at hv
    cases hv

/-- Behind a line end the field that is opened is that of the line. -/
theorem opens_line (ht : ¬[CR, LF] <:+: t) (hu : u <+: t ++ [CR, LF])
    (h : ∃ v ∈ (fieldLines (g ++ [CR, LF] ++ u)).getLast?, OpensField f v) : OpensField f u := by
  obtain ⟨v, hv, hopens⟩ := h
  have hlines : fieldLines (g ++ [CR, LF] ++ u) = (crlfLines g).tail ++ crlfLines u := by
    unfold fieldLines
    rw [List.append_assoc, List.cons_append, List.cons_append, List.nil_append, crlfLines_append,
      List.tail_append_of_ne_nil (crlfLines_ne_nil g)]
  have hlast : (crlfLines u).getLast? = some v := by
    rw [hlines, List.getLast?_append] at hv
    rcases getLast?_crlfLines ht hu with h | h
    all_goals
      rw [h] at hv ⊢
      exact hv
  rcases getLast?_crlfLines ht hu with h | h
  · rw [h] at hlast
    exact Option.some.inj hlast ▸ hopens
  · rw [h] at hlast
    exact absurd (Option.some.inj hlast ▸ hopens) (not_opensField_nil f)

end LastLine

end HttpProxy
