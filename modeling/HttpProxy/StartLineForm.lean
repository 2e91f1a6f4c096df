import HttpProxy.RequestParser
import Mathlib.Data.List.TakeWhile

/-!
# The start lines the parser takes

The parser takes more start lines than HTTP has. The blanks behind the method may be missing, the
target goes on to the next blank and so over line ends, and any proper prefix of `HTTP/1.` and any
byte behind it is a version: `LineForm` is such a start line as a structure of its parts, and
`LineForm.Strict` says that it is one of HTTP/1.0 or HTTP/1.1.

`lineScan` goes through the bytes as the parser does, part by part, and says whether it comes past
the end of the start line, what it reports if not, or that it waits. It passes just over the line
forms, and waits just in front of something that can still become one, or a method that is not
supported. What it says of some bytes stays when more arrive.
-/

namespace HttpProxy

/-! ## Formats -/

/-- How many bytes at the front of `w` are those of `format`, whatever the case of the letters. -/
def matched : List UInt8 → List UInt8 → Nat
  | f :: format, c :: w => if toupper c = toupper f then matched format w + 1 else 0
  | _, _ => 0

theorem matched_nil (format : List UInt8) : matched format [] = 0 := by cases format <;> rfl

/-- What is matched is no longer than the format and the bytes. -/
theorem matched_le (format w : List UInt8) :
    matched format w ≤ format.length ∧ matched format w ≤ w.length := by
  induction format generalizing w with
  | nil => exact ⟨Nat.zero_le _, Nat.zero_le _⟩
  | cons f format ih =>
    cases w with
    | nil => exact ⟨Nat.zero_le _, Nat.zero_le _⟩
    | cons c w =>
      unfold matched
      split
      · exact ⟨Nat.succ_le_succ (ih w).1, Nat.succ_le_succ (ih w).2⟩
      · exact ⟨Nat.zero_le _, Nat.zero_le _⟩

theorem matched_le_left (format w : List UInt8) : matched format w ≤ format.length := (matched_le format w).1

theorem matched_le_right (format w : List UInt8) : matched format w ≤ w.length := (matched_le format w).2

/-- What is matched is the format up to there, whatever the case of the letters. -/
theorem map_take_matched (format w : List UInt8) :
    (w.take (matched format w)).map toupper = (format.take (matched format w)).map toupper := by
  induction format generalizing w with
  | nil => rfl
  | cons f format ih =>
    cases w with
    | nil => rfl
    | cons c w =>
      unfold matched
      split
      · next hc =>
        rw [List.take_succ_cons, List.take_succ_cons, List.map_cons, List.map_cons, hc, ih]
      · rfl

/-- Bytes of the format, in front of a byte that does not go on with it. -/
theorem matched_append_eq {format p w : List UInt8}
    (hp : p.map toupper = (format.take p.length).map toupper)
    (hstop : ∀ c ∈ w.head?, ∀ d ∈ (format.drop p.length).head?, toupper c ≠ toupper d) :
    matched format (p ++ w) = p.length := by
  induction p generalizing format with
  | nil =>
    cases format with
    | nil => rfl
    | cons f format =>
      cases w with
      | nil => rfl
      | cons c w => exact if_neg (hstop c rfl f rfl)
  | cons c p ih =>
    cases format with
    | nil => cases hp
    | cons f format =>
      obtain ⟨hc, hp⟩ := List.cons.inj hp
      rw [List.cons_append, matched, if_pos hc, ih hp hstop]
      rfl

/-- What follows is not looked at once the format, or a byte that is not of it, was read. -/
theorem matched_append {format w : List UInt8} (v : List UInt8)
    (h : matched format w = format.length ∨ matched format w < w.length) :
    matched format (w ++ v) = matched format w := by
  induction format generalizing w with
  | nil => rfl
  | cons f format ih =>
    cases w with
    | nil => exact absurd h (by simp only [matched_nil]; simp)
    | cons c w =>
      rw [List.cons_append, matched, matched]
      unfold matched at h
      split
      · next hc =>
        rw [if_pos hc] at h
        rw [ih (h.imp Nat.succ.inj Nat.lt_of_succ_lt_succ)]
      · rfl

/-- The format is at the front of `w`. -/
theorem matched_eq_length_iff (format w : List UInt8) :
    matched format w = format.length ↔
      (w.take format.length).map toupper = format.map toupper := by
  constructor
  · intro h
    have htake := map_take_matched format w
    rw [h, List.take_length] at htake
    exact htake
  · intro h
    have hlen : (w.take format.length).length = format.length := by
      rw [← List.length_map, h, List.length_map]
    have hmatch : matched format (w.take format.length ++ w.drop format.length) =
        (w.take format.length).length := by
      refine matched_append_eq ?_ ?_
      · rw [hlen, List.take_length]
        exact h
      · rw [hlen, List.drop_length]
        exact fun _ _ _ hd => by cases hd
    rw [List.take_append_drop, hlen] at hmatch
    exact hmatch

/-- All of `w` is at the front of the format. -/
theorem matched_eq_right_iff (format w : List UInt8) :
    matched format w = w.length ↔ w.map toupper <+: format.map toupper := by
  constructor
  · intro h
    have htake := map_take_matched format w
    rw [h, List.take_length] at htake
    rw [htake, List.map_take]
    exact List.take_prefix _ _
  · intro h
    have htake := List.prefix_iff_eq_take.mp h
    rw [List.length_map, ← List.map_take] at htake
    have hmatch : matched format (w ++ []) = w.length := matched_append_eq htake fun c hc => by cases hc
    rw [List.append_nil] at hmatch
    exact hmatch

/-- A format in two parts. -/
theorem matched_append_format (format format' w : List UInt8) :
    matched (format ++ format') w =
      if matched format w = format.length then format.length + matched format' (w.drop format.length)
      else matched format w := by
  induction format generalizing w with
  | nil =>
    have h0 : matched [] w = ([] : List UInt8).length := by cases w <;> rfl
    rw [if_pos h0]
    exact (Nat.zero_add _).symm
  | cons f format ih =>
    have hne : ¬0 = (f :: format).length := Nat.ne_of_lt (Nat.zero_lt_succ _)
    cases w with
    | nil => rw [matched_nil, matched_nil, if_neg hne]
    | cons c w =>
      rw [List.cons_append, matched, matched]
      by_cases hc : toupper c = toupper f
      · rw [if_pos hc, if_pos hc, ih w, List.length_cons, List.drop_succ_cons]
        by_cases hm : matched format w = format.length
        · rw [if_pos hm, if_pos (by rw [hm])]
          omega
        · rw [if_neg hm, if_neg fun heq => hm (Nat.succ.inj heq)]
      · rw [if_neg hc, if_neg hc, if_neg hne]

/-! ## The scan -/

/-- What the parser does with the start line at the front of its input. -/
inductive LineScan
  | waits
  | fails (e : RequestErr)
  | passes (rest : List UInt8)
deriving DecidableEq, Repr

/-- More bytes arrive. -/
def LineScan.append : LineScan → List UInt8 → LineScan
  | .passes rest, v => .passes (rest ++ v)
  | s, _ => s

/-- The end of the start line. -/
def endScan (w : List UInt8) : LineScan :=
  if matched [CR, LF] w = 2 then .passes (w.drop 2)
  else if matched [CR, LF] w = w.length then .waits
  else .fails .START_LINE_END_ERROR

/-- The version: any byte behind `HTTP/1.`, and nothing behind a proper prefix of it. -/
def versionScan (w : List UInt8) : LineScan :=
  let i := matched (lit "HTTP/1.") w
  if i = 7 then if w.length = 7 then .waits else endScan (w.drop 8)
  else if i = w.length then .waits
  else endScan (w.drop i)

/-- Blanks, if any, and then what `scan` goes through. -/
def spacesScan (scan : List UInt8 → LineScan) (w : List UInt8) : LineScan :=
  if w.dropWhile isBlank = [] then .waits else scan (w.dropWhile isBlank)

/-- The target, up to a blank. -/
def targetScan (w : List UInt8) : LineScan :=
  if w.dropWhile (!isBlank ·) = [] then .waits
  else spacesScan versionScan (w.dropWhile (!isBlank ·))

/-- The words the options match: the methods, and what is read as `PUT` when `POST` missed after
some of its letters. -/
def methodWords : List (List UInt8 × HttpMethod) :=
  methodOption ++ [(lit "POUT", .PUT), (lit "POSUT", .PUT)]

/-- The word `o` is at the front of `w`. -/
def BeginsWith (w : List UInt8) (o : List UInt8 × HttpMethod) : Prop :=
  matched o.1 w = o.1.length

instance decidableBeginsWith (w : List UInt8) (o : List UInt8 × HttpMethod) :
    Decidable (BeginsWith w o) :=
  inferInstanceAs (Decidable (_ = _))

/-- The method, and behind it what follows one that is supported. -/
def methodScan (scan : List UInt8 → LineScan) (w : List UInt8) : LineScan :=
  match methodWords.find? (fun o => decide (BeginsWith w o)) with
  | some (name, type) =>
    if isSupported type then scan (w.drop name.length) else .fails .UNSUPPORTED_METHOD_ERROR
  | none =>
    if methodWords.any fun o => matched o.1 w == w.length then .waits
    else .fails .GENERAL_METHOD_ERROR

/-- The start line at the front of `w`. -/
def lineScan (w : List UInt8) : LineScan := methodScan (spacesScan targetScan) w

/-! ### More bytes -/

/-- What a scan says of some bytes stays when more arrive. -/
def Stable (scan : List UInt8 → LineScan) : Prop :=
  ∀ w v, scan w ≠ .waits → scan (w ++ v) = (scan w).append v

/-- The end of the line is read off its first two bytes. -/
theorem stable_endScan : Stable endScan := by
  intro w v h
  unfold endScan at h ⊢
  have hle := matched_le_right [CR, LF] w
  by_cases h2 : matched [CR, LF] w = 2
  · rw [if_pos h2, matched_append v (.inl h2), if_pos h2, List.drop_append_of_le_length (h2 ▸ hle)]
    rfl
  · rw [if_neg h2] at h
    by_cases hw : matched [CR, LF] w = w.length
    · exact absurd (if_pos hw) h
    · have hlt : matched [CR, LF] w < w.length := Nat.lt_of_le_of_ne hle hw
      rw [if_neg h2, if_neg hw, matched_append v (.inr hlt), if_neg h2, if_neg]
      · rfl
      · rw [List.length_append]
        omega

/-- The version is read off the bytes up to the one behind it. -/
theorem stable_versionScan : Stable versionScan := by
  intro w v h
  unfold versionScan at h ⊢
  have hle := matched_le_right (lit "HTTP/1.") w
  simp only at h ⊢
  by_cases h7 : matched (lit "HTTP/1.") w = 7
  · rw [if_pos h7] at h
    rw [if_pos h7, matched_append v (.inl h7), if_pos h7]
    by_cases hw : w.length = 7
    · exact absurd (if_pos hw) h
    · rw [if_neg hw] at h
      rw [if_neg hw, if_neg (by rw [List.length_append]; omega), List.drop_append_of_le_length (by omega)]
      exact stable_endScan _ v h
  · rw [if_neg h7] at h
    by_cases hw : matched (lit "HTTP/1.") w = w.length
    · exact absurd (if_pos hw) h
    · have hlt : matched (lit "HTTP/1.") w < w.length := Nat.lt_of_le_of_ne hle hw
      rw [if_neg hw] at h
      rw [if_neg h7, if_neg hw, matched_append v (.inr hlt), if_neg h7,
        if_neg (by rw [List.length_append]; omega), List.drop_append_of_le_length hle]
      exact stable_endScan _ v h

/-- Blanks that something stands behind are the same when more arrive. -/
theorem dropWhile_append_of_ne_nil {p : UInt8 → Bool} {w : List UInt8} (h : w.dropWhile p ≠ [])
    (v : List UInt8) : (w ++ v).dropWhile p = w.dropWhile p ++ v := by
  rw [List.dropWhile_append, if_neg (by rw [List.isEmpty_iff]; exact h)]

/-- Blanks in front of a scan that is stable. -/
theorem stable_spacesScan {scan : List UInt8 → LineScan} (hscan : Stable scan) :
    Stable (spacesScan scan) := by
  intro w v h
  unfold spacesScan at h ⊢
  by_cases hw : w.dropWhile isBlank = []
  · exact absurd (if_pos hw) h
  · rw [if_neg hw] at h
    rw [if_neg hw, dropWhile_append_of_ne_nil hw, if_neg (List.append_ne_nil_of_left_ne_nil hw v)]
    exact hscan _ v h

/-- The target is read off the bytes up to the blank behind it. -/
theorem stable_targetScan : Stable targetScan := by
  intro w v h
  unfold targetScan at h ⊢
  by_cases hw : w.dropWhile (!isBlank ·) = []
  · exact absurd (if_pos hw) h
  · rw [if_neg hw] at h
    rw [if_neg hw, dropWhile_append_of_ne_nil hw, if_neg (List.append_ne_nil_of_left_ne_nil hw v)]
    exact stable_spacesScan stable_versionScan _ v h

/-- A word at the front stays there when more arrives. -/
theorem BeginsWith.append {w : List UInt8} {o : List UInt8 × HttpMethod} (h : BeginsWith w o)
    (v : List UInt8) : BeginsWith (w ++ v) o :=
  (matched_append v (.inl h)).trans h

/-- A word at the front is no longer than the bytes. -/
theorem BeginsWith.length_le {w : List UInt8} {o : List UInt8 × HttpMethod} (h : BeginsWith w o) :
    o.1.length ≤ w.length := h ▸ matched_le_right o.1 w

/-- Which word is at the front is known from the words alone: none is the beginning of another. -/
theorem BeginsWith.unique {w w' : List UInt8} {o o' : List UInt8 × HttpMethod} (ho : o ∈ methodWords)
    (ho' : o' ∈ methodWords) (h : BeginsWith w o) (h' : BeginsWith w' o') (hw : w <+: w') : o = o' := by
  have hupper : ∀ o ∈ methodWords, o.1.map toupper = o.1 := by decide +kernel
  have hfree : ∀ o ∈ methodWords, ∀ o' ∈ methodWords, o.1 <+: o'.1 → o = o' := by decide +kernel
  have hpre : ∀ {w o}, o ∈ methodWords → BeginsWith w o → o.1 <+: w.map toupper := by
    intro w o ho h
    rw [← hupper o ho, ← (matched_eq_length_iff o.1 w).mp h, List.map_take]
    exact List.take_prefix _ _
  have hboth : o.1 <+: w'.map toupper := (hpre ho h).trans (hw.map toupper)
  rcases List.prefix_or_prefix_of_prefix hboth (hpre ho' h') with hle | hle
  · exact hfree o ho o' ho' hle
  · exact (hfree o' ho' o ho hle).symm

/-- Where a word is at the front the scan goes on behind it, or the method is not supported. -/
theorem methodScan_of_beginsWith {scan : List UInt8 → LineScan} {w : List UInt8}
    {o : List UInt8 × HttpMethod} (ho : o ∈ methodWords) (h : BeginsWith w o) :
    methodScan scan w =
      if isSupported o.2 then scan (w.drop o.1.length) else .fails .UNSUPPORTED_METHOD_ERROR := by
  unfold methodScan
  cases hfind : methodWords.find? (fun o => decide (BeginsWith w o)) with
  | none =>
    have hnone := List.find?_eq_none.mp hfind o ho
    exact absurd (decide_eq_true h) hnone
  | some o' =>
    have hfound := List.find?_some hfind
    have h' : BeginsWith w o' := of_decide_eq_true hfound
    obtain rfl := h.unique ho (List.mem_of_find?_eq_some hfind) h' List.prefix_rfl
    rfl

/-- Where no word is at the front the scan waits for the rest of one, or there is no method. -/
theorem methodScan_of_none {scan : List UInt8 → LineScan} {w : List UInt8}
    (h : ∀ o ∈ methodWords, ¬BeginsWith w o) :
    methodScan scan w =
      if methodWords.any fun o => matched o.1 w == w.length then .waits
      else .fails .GENERAL_METHOD_ERROR := by
  have hfind : methodWords.find? (fun o => decide (BeginsWith w o)) = none :=
    List.find?_eq_none.mpr fun o ho hc => h o ho (of_decide_eq_true hc)
  unfold methodScan
  rw [hfind]

/-- The method is read off the bytes up to its end: no word is in front of another. -/
theorem stable_methodScan {scan : List UInt8 → LineScan} (hscan : Stable scan) :
    Stable (methodScan scan) := by
  intro w v h
  by_cases hbegins : ∃ o ∈ methodWords, BeginsWith w o
  · obtain ⟨o, ho, hb⟩ := hbegins
    rw [methodScan_of_beginsWith ho hb] at h ⊢
    rw [methodScan_of_beginsWith ho (hb.append v)]
    split
    · next hsupp =>
      rw [if_pos hsupp] at h
      rw [List.drop_append_of_le_length hb.length_le]
      exact hscan _ v h
    · rfl
  · have hnone : ∀ o ∈ methodWords, ¬BeginsWith w o := fun o ho hb => hbegins ⟨o, ho, hb⟩
    rw [methodScan_of_none hnone] at h ⊢
    have hshort : ∀ o ∈ methodWords, matched o.1 w < w.length := by
      intro o ho
      refine Nat.lt_of_le_of_ne (matched_le_right o.1 w) fun heq => h (if_pos ?_)
      exact List.any_eq_true.mpr ⟨o, ho, beq_iff_eq.mpr heq⟩
    have hsame : ∀ o ∈ methodWords, matched o.1 (w ++ v) = matched o.1 w := fun o ho =>
      matched_append v (.inr (hshort o ho))
    rw [methodScan_of_none fun o ho hb => hnone o ho ((hsame o ho).symm.trans hb), if_neg, if_neg]
    · rfl
    · intro hany
      exact h (if_pos hany)
    · intro hany
      obtain ⟨o, ho, heq⟩ := List.any_eq_true.mp hany
      have hlt := hshort o ho
      have hlen := beq_iff_eq.mp heq
      rw [hsame o ho, List.length_append] at hlen
      omega

/-- What the scan says of a start line stays when more arrives. -/
theorem stable_lineScan : Stable lineScan := stable_methodScan (stable_spacesScan stable_targetScan)

/-! ## The forms -/

/-- A version as the parser takes it. -/
def VersionForm (v : List UInt8) : Prop :=
  (∃ i < 7, v.map toupper = (lit "HTTP/1.").take i) ∨
    v.length = 8 ∧ (v.take 7).map toupper = lit "HTTP/1."

/-- A start line as the parser takes it. -/
structure LineForm where
  type : HttpMethod
  method : List UInt8
  gap₁ : List UInt8
  target : List UInt8
  gap₂ : List UInt8
  version : List UInt8
  supported : isSupported type = true
  method_eq : (method.map toupper, type) ∈ methodOption
  gap₁_blank : ∀ c ∈ gap₁, isBlank c = true
  target_ne : target ≠ []
  target_ok : ∀ c ∈ target, isBlank c = false
  gap₂_ne : gap₂ ≠ []
  gap₂_blank : ∀ c ∈ gap₂, isBlank c = true
  version_ok : VersionForm version

/-- A start line of HTTP/1.0 or HTTP/1.1. -/
structure LineForm.Strict (d : LineForm) : Prop where
  gap₁_ne : d.gap₁ ≠ []
  target_ok : ∀ c ∈ d.target, c ≠ CR ∧ c ≠ LF
  version_eq : d.version.map toupper = lit "HTTP/1.0" ∨ d.version.map toupper = lit "HTTP/1.1"

def LineForm.bytes (d : LineForm) : List UInt8 :=
  d.method ++ (d.gap₁ ++ (d.target ++ (d.gap₂ ++ (d.version ++ [CR, LF]))))

/-- More bytes can make a start line of `w`, or a method that is not supported. -/
def CanGoOn (w : List UInt8) : Prop :=
  ∃ v, v ≠ [] ∧ ((∃ d : LineForm, w ++ v = d.bytes) ∨
    ∃ o ∈ methodWords, isSupported o.2 = false ∧ (w ++ v).map toupper = o.1)

/-- What the scan says of a part of the line that starts with `w`: it passes over bytes with `P`, it
waits if these can still arrive, and else the end of the line is not where it should be. -/
structure LeadsTo (P : List UInt8 → Prop) (w : List UInt8) (r : LineScan) : Prop where
  passes : ∀ rest, r = .passes rest → ∃ p, P p ∧ w = p ++ rest
  waits : r = .waits → ∃ v, v ≠ [] ∧ P (w ++ v)
  fails : ∀ e, r = .fails e → e = .START_LINE_END_ERROR

/-- What stands in front. -/
theorem LeadsTo.prepend {P Q : List UInt8 → Prop} {w : List UInt8} {r : LineScan} (h : LeadsTo P w r)
    (g : List UInt8) (hQ : ∀ p, P p → Q (g ++ p)) : LeadsTo Q (g ++ w) r where
  passes := fun rest hr => by
    obtain ⟨p, hp, rfl⟩ := h.passes rest hr
    exact ⟨g ++ p, hQ p hp, (List.append_assoc g p rest).symm⟩
  waits := fun hr => by
    obtain ⟨v, hv, hp⟩ := h.waits hr
    exact ⟨v, hv, by rw [List.append_assoc]; exact hQ _ hp⟩
  fails := h.fails

/-- A scan may wait when something that passes can still arrive. -/
theorem LeadsTo.of_waits {P : List UInt8 → Prop} {w v : List UInt8} (hv : v ≠ []) (hp : P (w ++ v)) :
    LeadsTo P w .waits :=
  ⟨fun _ hr => (by cases hr), fun _ => ⟨v, hv, hp⟩, fun _ hr => (by cases hr)⟩

/-! ### The end of the line -/

/-- CR is the only byte that is CR in upper case. -/
theorem toupper_eq_cr {c : UInt8} : toupper c = toupper CR ↔ c = CR := by
  unfold toupper; grind

/-- LF is the only byte that is LF in upper case. -/
theorem toupper_eq_lf {c : UInt8} : toupper c = toupper LF ↔ c = LF := by
  unfold toupper; grind

theorem endScan_line (rest : List UInt8) : endScan (CR :: LF :: rest) = .passes rest := rfl

/-- A line end, or what can still be one. -/
theorem endScan_cases (w : List UInt8) :
    (∃ rest, w = CR :: LF :: rest) ∨ w = [] ∨ w = [CR] ∨ endScan w = .fails .START_LINE_END_ERROR := by
  unfold endScan
  cases w with
  | nil => exact .inr (.inl rfl)
  | cons a w =>
    by_cases ha : a = CR
    · subst ha
      cases w with
      | nil => exact .inr (.inr (.inl rfl))
      | cons b w =>
        by_cases hb : b = LF
        · exact .inl ⟨w, by rw [hb]⟩
        · have hmatch : matched [CR, LF] (CR :: b :: w) = 1 := by
            rw [matched, if_pos rfl, matched, if_neg (mt toupper_eq_lf.mp hb)]
          refine .inr (.inr (.inr ?_))
          rw [hmatch, if_neg (by decide), if_neg]
          simp only [List.length_cons]
          omega
    · have hmatch : matched [CR, LF] (a :: w) = 0 := by
        rw [matched, if_neg (mt toupper_eq_cr.mp ha)]
      refine .inr (.inr (.inr ?_))
      rw [hmatch, if_neg (by decide), if_neg]
      simp only [List.length_cons]
      omega

/-- The end of the line passes, waits for its second byte or fails. -/
theorem endScan_leadsTo (w : List UInt8) : LeadsTo (· = [CR, LF]) w (endScan w) := by
  rcases endScan_cases w with ⟨rest, rfl⟩ | rfl | rfl | hfails
  · rw [endScan_line]
    refine ⟨fun rest' hr => ⟨[CR, LF], rfl, ?_⟩, fun hr => (by cases hr), fun _ hr => (by cases hr)⟩
    rw [LineScan.passes.inj hr]
    rfl
  · exact .of_waits (List.cons_ne_nil CR [LF]) rfl
  · exact .of_waits (List.cons_ne_nil LF []) rfl
  · rw [hfails]
    exact ⟨fun _ hr => (by cases hr), fun hr => (by cases hr), fun _ hr => (LineScan.fails.inj hr).symm⟩

/-! ### The version -/

/-- A version and the end of the line pass. -/
theorem versionScan_line {v : List UInt8} (hv : VersionForm v) (rest : List UInt8) :
    versionScan (v ++ CR :: LF :: rest) = .passes rest := by
  have hbytes : ∀ i < 7, ∀ d ∈ ((lit "HTTP/1.").drop i).head?, toupper CR ≠ toupper d := by decide +kernel
  rcases hv with ⟨i, hi, hmap⟩ | ⟨hlen, hmap⟩
  · have hlen : v.length = i := by
      rw [← List.length_map (f := toupper), hmap, List.length_take]
      exact Nat.min_eq_left (Nat.le_of_lt hi)
    have hupper : ((lit "HTTP/1.").take i).map toupper = (lit "HTTP/1.").take i := by
      rw [List.map_take]
      rfl
    have hmatch : matched (lit "HTTP/1.") (v ++ CR :: LF :: rest) = i := by
      rw [matched_append_eq (by rw [hlen, hupper]; exact hmap), hlen]
      rw [hlen]
      rintro c ⟨⟩
      exact hbytes i hi
    unfold versionScan
    simp only [hmatch]
    rw [if_neg (Nat.ne_of_lt hi), if_neg, ← hlen, List.drop_left]
    · rfl
    · rw [List.length_append, hlen]
      simp only [List.length_cons]
      omega
  · have hseven : (v ++ CR :: LF :: rest).take 7 = v.take 7 :=
      List.take_append_of_le_length (by omega)
    have hmatch : matched (lit "HTTP/1.") (v ++ CR :: LF :: rest) = 7 := by
      refine (matched_eq_length_iff _ _).mpr ?_
      rw [show (lit "HTTP/1.").length = 7 from rfl, hseven, hmap]
      rfl
    unfold versionScan
    simp only [hmatch]
    rw [if_pos trivial, if_neg, ← hlen, List.drop_left]
    · rfl
    · rw [List.length_append, hlen]
      simp only [List.length_cons]
      omega

/-- The version at the front of `w` when the scan goes on behind it. -/
theorem versionScan_cases (w : List UInt8) :
    versionScan w = .waits ∧ w.map toupper <+: lit "HTTP/1." ∨
      ∃ v w', VersionForm v ∧ w = v ++ w' ∧ versionScan w = endScan w' := by
  have htake := map_take_matched (lit "HTTP/1.") w
  have hupper : ∀ i, ((lit "HTTP/1.").take i).map toupper = (lit "HTTP/1.").take i := fun i => by
    rw [List.map_take]
    rfl
  have hle := matched_le_right (lit "HTTP/1.") w
  have hle7 : matched (lit "HTTP/1.") w ≤ 7 := matched_le_left (lit "HTTP/1.") w
  rw [hupper] at htake
  unfold versionScan
  simp only
  by_cases h7 : matched (lit "HTTP/1.") w = 7
  · rw [if_pos h7]
    rw [h7] at htake hle
    by_cases hw : w.length = 7
    · rw [if_pos hw]
      refine .inl ⟨rfl, ?_⟩
      rw [← hw, List.take_length] at htake
      rw [htake]
      exact List.take_prefix _ _
    · rw [if_neg hw]
      refine .inr ⟨w.take 8, w.drop 8, .inr ⟨?_, ?_⟩, (List.take_append_drop 8 w).symm, rfl⟩
      · rw [List.length_take]
        omega
      · rw [List.take_take]
        exact htake
  · rw [if_neg h7]
    by_cases hw : matched (lit "HTTP/1.") w = w.length
    · rw [if_pos hw]
      refine .inl ⟨rfl, ?_⟩
      rw [hw, List.take_length] at htake
      rw [htake]
      exact List.take_prefix _ _
    · rw [if_neg hw]
      exact .inr ⟨w.take _, w.drop _, .inl ⟨_, Nat.lt_of_le_of_ne hle7 h7, htake⟩,
        (List.take_append_drop _ w).symm, rfl⟩

/-- A version with the end of the line. -/
def VersionPart (p : List UInt8) : Prop := ∃ v, VersionForm v ∧ p = v ++ [CR, LF]

/-- The version with the end of the line passes, waits or fails. -/
theorem versionScan_leadsTo (w : List UInt8) : LeadsTo VersionPart w (versionScan w) := by
  rcases versionScan_cases w with ⟨hwaits, hpre⟩ | ⟨v, w', hv, rfl, hscan⟩
  · rw [hwaits]
    have htake := List.prefix_iff_eq_take.mp hpre
    rw [List.length_map] at htake
    have hle := hpre.length_le
    rw [List.length_map, show (lit "HTTP/1.").length = 7 from rfl] at hle
    rcases Nat.lt_or_eq_of_le hle with hlt | heq
    · exact .of_waits (List.cons_ne_nil CR [LF]) ⟨w, .inl ⟨w.length, hlt, htake⟩, rfl⟩
    · refine .of_waits (List.cons_ne_nil 0x30 [CR, LF]) ⟨w ++ [0x30], .inr ⟨?_, ?_⟩, ?_⟩
      · rw [List.length_append, heq]
        rfl
      · rw [List.take_left' heq, htake, heq]
        rfl
      · rw [List.append_assoc]
        rfl
  · rw [hscan]
    exact (endScan_leadsTo w').prepend v fun p hp => ⟨v, hv, by rw [hp]⟩

/-- The version does not begin with a blank, also where there is none. -/
theorem VersionPart.head {p : List UInt8} (h : VersionPart p) : ∀ c ∈ p.head?, isBlank c = false := by
  obtain ⟨v, hv, rfl⟩ := h
  intro c hc
  cases v with
  | nil =>
    obtain rfl := Option.some.inj hc
    rfl
  | cons b v =>
    obtain rfl := Option.some.inj hc
    have hupper : toupper b = 0x48 := by
      rcases hv with ⟨i, hi, hmap⟩ | ⟨-, hmap⟩
      · cases i with
        | zero => cases hmap
        | succ i => exact (List.cons.inj hmap).1
      · exact (List.cons.inj hmap).1
    cases hb : isBlank b with
    | false => rfl
    | true =>
      rcases Bool.or_eq_true_iff.mp hb with hb | hb
      · rw [beq_iff_eq.mp hb] at hupper
        cases hupper
      · rw [beq_iff_eq.mp hb] at hupper
        cases hupper

/-! ### Blanks and the target -/

/-- Dropping the blanks in front of something that begins with none. -/
theorem dropWhile_all {p : UInt8 → Bool} {g w : List UInt8} (hg : ∀ c ∈ g, p c = true)
    (hw : ∀ c ∈ w.head?, p c = false) : (g ++ w).dropWhile p = w := by
  rw [List.dropWhile_append, List.dropWhile_eq_nil_iff.mpr hg, List.isEmpty_nil, if_pos rfl]
  cases w with
  | nil => rfl
  | cons c w => rw [List.dropWhile_cons, if_neg (by rw [hw c rfl]; exact Bool.false_ne_true)]

theorem takeWhile_all (p : UInt8 → Bool) (w : List UInt8) : ∀ c ∈ w.takeWhile p, p c = true :=
  List.all_eq_true.mp List.all_takeWhile

theorem dropWhile_head (p : UInt8 → Bool) (w : List UInt8) : ∀ c ∈ (w.dropWhile p).head?, p c = false := by
  intro c hc
  obtain ⟨l, hl⟩ := List.head?_eq_some_iff.mp hc
  have hnot := List.dropWhile_get_zero_not p w (by rw [hl]; exact Nat.zero_lt_succ _)
  simp only [hl, List.get_eq_getElem, List.getElem_cons_zero] at hnot
  exact Bool.eq_false_iff.mpr hnot

section Parts

variable {scan : List UInt8 → LineScan} {w : List UInt8}

/-- Blanks in front of something are gone through. -/
theorem spacesScan_gap {g : List UInt8} (hg : ∀ c ∈ g, isBlank c = true) (hne : w ≠ [])
    (hw : ∀ c ∈ w.head?, isBlank c = false) : spacesScan scan (g ++ w) = scan w := by
  unfold spacesScan
  rw [dropWhile_all hg hw, if_neg hne]

/-- The blanks at the front, and what the scan goes through behind them. -/
theorem spacesScan_cases (scan : List UInt8 → LineScan) (w : List UInt8) :
    spacesScan scan w = .waits ∧ (∀ c ∈ w, isBlank c = true) ∨
      ∃ g w', (∀ c ∈ g, isBlank c = true) ∧ w = g ++ w' ∧ w' ≠ [] ∧
        (∀ c ∈ w'.head?, isBlank c = false) ∧ spacesScan scan w = scan w' := by
  unfold spacesScan
  by_cases hw : w.dropWhile isBlank = []
  · rw [if_pos hw]
    exact .inl ⟨rfl, List.dropWhile_eq_nil_iff.mp hw⟩
  · rw [if_neg hw]
    exact .inr ⟨_, _, takeWhile_all isBlank w, (List.takeWhile_append_dropWhile).symm, hw,
      dropWhile_head isBlank w, rfl⟩

/-- Blanks in front of a part pass with the part, and wait where the blanks are all there is. -/
theorem spacesScan_leadsTo {P Q : List UInt8 → Prop} {p : List UInt8} (hne : p ≠ []) (hp : P p)
    (hscan : ∀ w, w ≠ [] → (∀ c ∈ w.head?, isBlank c = false) → LeadsTo P w (scan w))
    (hQ : ∀ g, (∀ c ∈ g, isBlank c = true) → ∀ p, P p → Q (g ++ p)) :
    LeadsTo Q w (spacesScan scan w) := by
  rcases spacesScan_cases scan w with ⟨hwaits, hall⟩ | ⟨g, w', hg, rfl, hne', hhead, heq⟩
  · rw [hwaits]
    exact .of_waits hne (hQ w hall p hp)
  · rw [heq]
    exact (hscan w' hne' hhead).prepend g (hQ g hg)

/-- A target with the blanks behind it. -/
theorem targetScan_target {t g : List UInt8} (ht : ∀ c ∈ t, isBlank c = false) (hg : g ≠ [])
    (hblank : ∀ c ∈ g, isBlank c = true) : targetScan (t ++ (g ++ w)) = spacesScan versionScan (g ++ w) := by
  have hhead : ∀ c ∈ (g ++ w).head?, (!isBlank c) = false := by
    intro c hc
    cases g with
    | nil => exact absurd rfl hg
    | cons d g =>
      obtain rfl := Option.some.inj hc
      rw [hblank d List.mem_cons_self]
      rfl
  have hne : g ++ w ≠ [] := List.append_ne_nil_of_left_ne_nil hg w
  unfold targetScan
  rw [dropWhile_all (fun c hc => by rw [ht c hc]; rfl) hhead, if_neg hne]

/-- The target at the front, and the blanks behind it. -/
theorem targetScan_cases (hne : w ≠ []) (hhead : ∀ c ∈ w.head?, isBlank c = false) :
    targetScan w = .waits ∧ (∀ c ∈ w, isBlank c = false) ∨
      ∃ t w', t ≠ [] ∧ (∀ c ∈ t, isBlank c = false) ∧ w = t ++ w' ∧ w' ≠ [] ∧
        (∀ c ∈ w'.head?, isBlank c = true) ∧ targetScan w = spacesScan versionScan w' := by
  have hnot : ∀ {c}, (!isBlank c) = true → isBlank c = false := fun h => by
    rw [Bool.not_eq_true'] at h
    exact h
  unfold targetScan
  by_cases hw : w.dropWhile (!isBlank ·) = []
  · rw [if_pos hw]
    exact .inl ⟨rfl, fun c hc => hnot (List.dropWhile_eq_nil_iff.mp hw c hc)⟩
  · rw [if_neg hw]
    refine .inr ⟨_, _, ?_, fun c hc => hnot (takeWhile_all _ w c hc),
      (List.takeWhile_append_dropWhile).symm, hw, fun c hc => ?_, rfl⟩
    · cases w with
      | nil => exact absurd rfl hne
      | cons c w =>
        rw [List.takeWhile_cons, if_pos (by rw [hhead c rfl]; rfl)]
        exact List.cons_ne_nil _ _
    · have hdrop := dropWhile_head (!isBlank ·) w c hc
      rw [Bool.not_eq_false'] at hdrop
      exact hdrop

/-- A target with what is behind it. -/
def TargetPart (p : List UInt8) : Prop :=
  ∃ t g q, t ≠ [] ∧ (∀ c ∈ t, isBlank c = false) ∧ g ≠ [] ∧ (∀ c ∈ g, isBlank c = true) ∧
    VersionPart q ∧ p = t ++ (g ++ q)

/-- The target passes with what is behind it, waits or fails. -/
theorem targetScan_leadsTo (hne : w ≠ []) (hhead : ∀ c ∈ w.head?, isBlank c = false) :
    LeadsTo TargetPart w (targetScan w) := by
  have hend : VersionPart [CR, LF] := ⟨[], .inl ⟨0, by decide, rfl⟩, rfl⟩
  rcases targetScan_cases hne hhead with ⟨hwaits, hall⟩ | ⟨t, w', htne, ht, rfl, hne', hhead', hscan⟩
  · rw [hwaits]
    refine .of_waits (List.cons_ne_nil SP [CR, LF]) ⟨w, [SP], [CR, LF], hne, hall, List.cons_ne_nil _ _,
      fun c hc => ?_, hend, rfl⟩
    rw [List.mem_singleton.mp hc]
    rfl
  · rw [hscan]
    -- The target ends in front of a blank, so that there are blanks behind it.
    have hspaces : LeadsTo (fun p => ∃ g q, g ≠ [] ∧ (∀ c ∈ g, isBlank c = true) ∧ VersionPart q ∧
        p = g ++ q) w' (spacesScan versionScan w') := by
      rcases spacesScan_cases versionScan w' with ⟨hwaits, hall⟩ | ⟨g, w'', hg, rfl, hne'', hhead'', heq⟩
      · rw [hwaits]
        exact .of_waits (List.cons_ne_nil CR [LF]) ⟨w', [CR, LF], hne', hall, hend, rfl⟩
      · have hgne : g ≠ [] := by
          rintro rfl
          cases w'' with
          | nil => exact hne'' rfl
          | cons c w'' => exact Bool.false_ne_true ((hhead'' c rfl).symm.trans (hhead' c rfl))
        rw [heq]
        exact (versionScan_leadsTo w'').prepend g fun p hp => ⟨g, p, hgne, hg, hp, rfl⟩
    refine hspaces.prepend t ?_
    rintro p ⟨g, q, hgne, hg, hq, rfl⟩
    exact ⟨t, g, q, htne, ht, hgne, hg, hq, rfl⟩

end Parts

/-! ### The line -/

namespace LineForm

variable (d : LineForm)

/-- The method's name. -/
def option : List UInt8 × HttpMethod := (d.method.map toupper, d.type)

/-- The method of a start line is one of the words. -/
theorem option_mem : d.option ∈ methodWords := List.mem_append_left _ d.method_eq

/-- The bytes of a start line begin with its method. -/
theorem beginsWith_method (w : List UInt8) : BeginsWith (d.method ++ w) d.option := by
  refine (matched_eq_length_iff _ _).mpr ?_
  have hlen : d.option.1.length = d.method.length := List.length_map _
  rw [hlen, List.take_left]
  change _ = (d.method.map toupper).map toupper
  rw [List.map_map]
  exact List.map_congr_left fun c _ => (toupper_toupper c).symm

/-- The target begins with no blank. -/
theorem head_target (w : List UInt8) : ∀ c ∈ (d.target ++ w).head?, isBlank c = false := by
  intro c hc
  cases ht : d.target with
  | nil => exact absurd ht d.target_ne
  | cons b t =>
    rw [ht] at hc
    obtain rfl := Option.some.inj hc
    exact d.target_ok b (by rw [ht]; exact List.mem_cons_self)

/-- The blanks behind the target begin with one. -/
theorem head_gap₂ (w : List UInt8) : ∀ c ∈ (d.gap₂ ++ w).head?, (!isBlank c) = false := by
  intro c hc
  cases hg : d.gap₂ with
  | nil => exact absurd hg d.gap₂_ne
  | cons b g =>
    rw [hg] at hc
    obtain rfl := Option.some.inj hc
    rw [d.gap₂_blank b (by rw [hg]; exact List.mem_cons_self)]
    rfl

/-- The version, or the line end in its place, begins with no blank. -/
theorem head_version (w : List UInt8) : ∀ c ∈ (d.version ++ CR :: w).head?, isBlank c = false := by
  have hpart : VersionPart (d.version ++ [CR, LF]) := ⟨d.version, d.version_ok, rfl⟩
  intro c hc
  refine hpart.head c ?_
  cases hv : d.version with
  | nil =>
    rw [hv] at hc
    exact hc
  | cons b v =>
    rw [hv] at hc
    exact hc

/-- The bytes of a start line as the scan goes through them. -/
theorem bytes_append (rest : List UInt8) :
    d.bytes ++ rest =
      d.method ++ (d.gap₁ ++ (d.target ++ (d.gap₂ ++ (d.version ++ CR :: LF :: rest)))) := by
  unfold bytes
  simp only [List.append_assoc, List.cons_append, List.nil_append]

/-- The scan passes just over the bytes of a start line. -/
theorem lineScan_bytes (rest : List UInt8) : lineScan (d.bytes ++ rest) = .passes rest := by
  have hlen : d.option.1.length = d.method.length := List.length_map _
  unfold lineScan
  rw [d.bytes_append, methodScan_of_beginsWith d.option_mem (d.beginsWith_method _), hlen, List.drop_left,
    if_pos (show isSupported d.option.2 = true from d.supported),
    spacesScan_gap d.gap₁_blank (List.append_ne_nil_of_left_ne_nil d.target_ne _) (d.head_target _),
    targetScan_target d.target_ok d.gap₂_ne d.gap₂_blank,
    spacesScan_gap d.gap₂_blank (List.append_ne_nil_of_right_ne_nil _ (List.cons_ne_nil _ _))
      (d.head_version _)]
  exact versionScan_line d.version_ok rest

variable {d} {d' : LineForm} {w : List UInt8}

/-- The parts of a start line are where its bytes say. -/
theorem eq_of_bytes_eq (h : d.bytes = d'.bytes) : d = d' := by
  have hbytes := congrArg (· ++ ([] : List UInt8)) h
  simp only [bytes_append] at hbytes
  have hb := d.beginsWith_method (d.gap₁ ++ (d.target ++ (d.gap₂ ++ (d.version ++ [CR, LF]))))
  have hb' := d'.beginsWith_method (d'.gap₁ ++ (d'.target ++ (d'.gap₂ ++ (d'.version ++ [CR, LF]))))
  rw [hbytes] at hb
  have hoption := hb.unique d.option_mem d'.option_mem hb' List.prefix_rfl
  have hlen : d.method.length = d'.method.length := by
    have hlen := congrArg List.length (Prod.mk.inj hoption).1
    rw [List.length_map, List.length_map] at hlen
    exact hlen
  obtain ⟨hmethod, hafter⟩ := List.append_inj hbytes hlen
  -- What follows the blanks, or the target, is what is left when these are dropped.
  have hgap := congrArg (List.dropWhile isBlank) hafter
  rw [dropWhile_all d.gap₁_blank (d.head_target _), dropWhile_all d'.gap₁_blank (d'.head_target _)] at hgap
  have htarget := congrArg (List.dropWhile (!isBlank ·)) hgap
  rw [dropWhile_all (fun c hc => by rw [d.target_ok c hc]; rfl) (d.head_gap₂ _),
    dropWhile_all (fun c hc => by rw [d'.target_ok c hc]; rfl) (d'.head_gap₂ _)] at htarget
  have hgap' := congrArg (List.dropWhile isBlank) htarget
  rw [dropWhile_all d.gap₂_blank (d.head_version _), dropWhile_all d'.gap₂_blank (d'.head_version _)] at hgap'
  have hversion := List.append_cancel_right hgap'
  rw [hgap] at hafter
  rw [htarget] at hgap
  rw [hgap'] at htarget
  have hgap₁ := List.append_cancel_right hafter
  have htarget' := List.append_cancel_right hgap
  have hgap₂ := List.append_cancel_right htarget
  have htype : d.type = d'.type := (Prod.mk.inj hoption).2
  cases d
  cases d'
  cases htype
  cases hmethod
  cases hgap₁
  cases htarget'
  cases hgap₂
  cases hversion
  rfl

/-- There is one start line at the front of the input. -/
theorem unique (h : d.bytes <+: w) (h' : d'.bytes <+: w) : d = d' := by
  obtain ⟨rest, rfl⟩ := h
  obtain ⟨rest', hw⟩ := h'
  have hscan := d.lineScan_bytes rest
  rw [← hw, d'.lineScan_bytes rest'] at hscan
  obtain rfl := LineScan.passes.inj hscan
  exact (eq_of_bytes_eq (List.append_cancel_right hw)).symm

end LineForm

section Line

variable {w : List UInt8}

/-- The words that are supported are methods; the two others are read as one that is not. -/
theorem methodWords_supported : ∀ o ∈ methodWords, isSupported o.2 = true → o ∈ methodOption := by
  decide +kernel

theorem methodWords_upper : ∀ o ∈ methodWords, o.1.map toupper = o.1 := by decide +kernel

/-- The word at the front of `w`, as it is written there. -/
theorem BeginsWith.map_take {o : List UInt8 × HttpMethod} (ho : o ∈ methodWords) (h : BeginsWith w o) :
    (w.take o.1.length).map toupper = o.1 :=
  ((matched_eq_length_iff o.1 w).mp h).trans (methodWords_upper o ho)

/-- What follows a method that is supported. -/
def GapPart (p : List UInt8) : Prop := ∃ g q, (∀ c ∈ g, isBlank c = true) ∧ TargetPart q ∧ p = g ++ q

/-- Behind the method the rest of the line passes, waits or fails. -/
theorem gapScan_leadsTo (w : List UInt8) : LeadsTo GapPart w (spacesScan targetScan w) := by
  have hnil : VersionPart [CR, LF] := ⟨[], .inl ⟨0, by decide, rfl⟩, rfl⟩
  have hslash : TargetPart [0x2f, SP, CR, LF] := by
    refine ⟨[0x2f], [SP], [CR, LF], List.cons_ne_nil _ _, ?_, List.cons_ne_nil _ _, ?_, hnil, rfl⟩
    · exact fun c hc => by rw [List.mem_singleton.mp hc]; rfl
    · exact fun c hc => by rw [List.mem_singleton.mp hc]; rfl
  exact spacesScan_leadsTo (List.cons_ne_nil _ _) hslash (fun w hne hhead => targetScan_leadsTo hne hhead)
    fun g hg p hp => ⟨g, p, hg, hp, rfl⟩

/-- A method and what follows it are a start line. -/
theorem exists_lineForm {m p : List UInt8} {o : List UInt8 × HttpMethod} (ho : o ∈ methodWords)
    (hs : isSupported o.2 = true) (hm : m.map toupper = o.1) (hp : GapPart p) :
    ∃ d : LineForm, m ++ p = d.bytes := by
  obtain ⟨g₁, q, hg₁, ⟨t, g₂, q', htne, ht, hg₂ne, hg₂, ⟨v, hv, rfl⟩, rfl⟩, rfl⟩ := hp
  exact ⟨{ type := o.2, method := m, gap₁ := g₁, target := t, gap₂ := g₂, version := v, supported := hs,
           method_eq := by rw [hm]; exact methodWords_supported o ho hs, gap₁_blank := hg₁, target_ne := htne,
           target_ok := ht, gap₂_ne := hg₂ne, gap₂_blank := hg₂, version_ok := hv }, rfl⟩

/-- The method at the front of `w`, or the lack of one. -/
theorem lineScan_cases (w : List UInt8) :
    (∃ o ∈ methodWords, BeginsWith w o ∧ isSupported o.2 = true ∧
        lineScan w = spacesScan targetScan (w.drop o.1.length)) ∨
      (∃ o ∈ methodWords, BeginsWith w o ∧ isSupported o.2 = false ∧
        lineScan w = .fails .UNSUPPORTED_METHOD_ERROR) ∨
      (∀ o ∈ methodWords, ¬BeginsWith w o) ∧
        ((∃ o ∈ methodWords, matched o.1 w = w.length) ∧ lineScan w = .waits ∨
          lineScan w = .fails .GENERAL_METHOD_ERROR) := by
  by_cases hbegins : ∃ o ∈ methodWords, BeginsWith w o
  · obtain ⟨o, ho, hb⟩ := hbegins
    have hscan : lineScan w = _ := methodScan_of_beginsWith ho hb
    cases hs : isSupported o.2 with
    | true =>
      rw [if_pos hs] at hscan
      exact .inl ⟨o, ho, hb, hs, hscan⟩
    | false =>
      rw [if_neg (Bool.eq_false_iff.mp hs)] at hscan
      exact .inr (.inl ⟨o, ho, hb, hs, hscan⟩)
  · have hnone : ∀ o ∈ methodWords, ¬BeginsWith w o := fun o ho hb => hbegins ⟨o, ho, hb⟩
    have hscan : lineScan w = _ := methodScan_of_none hnone
    refine .inr (.inr ⟨hnone, ?_⟩)
    cases hany : methodWords.any fun o => matched o.1 w == w.length with
    | true =>
      obtain ⟨o, ho, heq⟩ := List.any_eq_true.mp hany
      exact .inl ⟨⟨o, ho, beq_iff_eq.mp heq⟩, hscan.trans (if_pos hany)⟩
    | false => exact .inr (hscan.trans (if_neg (Bool.eq_false_iff.mp hany)))

/-- The scan passes over the line forms. -/
theorem lineScan_passes_iff {rest : List UInt8} :
    lineScan w = .passes rest ↔ ∃ d : LineForm, w = d.bytes ++ rest := by
  constructor
  · intro h
    rcases lineScan_cases w with ⟨o, ho, hb, hs, hscan⟩ | ⟨o, ho, hb, hs, hscan⟩ | ⟨-, ⟨-, hscan⟩ | hscan⟩
    · obtain ⟨p, hp, hw⟩ := (gapScan_leadsTo _).passes rest (hscan.symm.trans h)
      obtain ⟨d, hd⟩ := exists_lineForm ho hs (hb.map_take ho) hp
      refine ⟨d, ?_⟩
      rw [← hd, List.append_assoc, ← hw, List.take_append_drop]
    · cases hscan.symm.trans h
    · cases hscan.symm.trans h
    · cases hscan.symm.trans h
  · rintro ⟨d, rfl⟩
    exact d.lineScan_bytes rest

/-- The scan fails for a method that is not supported. -/
theorem lineScan_unsupported_iff :
    lineScan w = .fails .UNSUPPORTED_METHOD_ERROR ↔
      ∃ o ∈ methodWords, isSupported o.2 = false ∧ BeginsWith w o := by
  constructor
  · intro h
    rcases lineScan_cases w with ⟨o, ho, hb, hs, hscan⟩ | ⟨o, ho, hb, hs, hscan⟩ | ⟨-, ⟨-, hscan⟩ | hscan⟩
    · cases (gapScan_leadsTo _).fails _ (hscan.symm.trans h)
    · exact ⟨o, ho, hs, hb⟩
    · cases hscan.symm.trans h
    · cases hscan.symm.trans h
  · rintro ⟨o, ho, hs, hb⟩
    have hscan : lineScan w = _ := methodScan_of_beginsWith ho hb
    exact hscan.trans (if_neg (Bool.eq_false_iff.mp hs))

/-- The scan reports one of three errors. -/
theorem lineScan_fails {e : RequestErr} (h : lineScan w = .fails e) :
    e = .GENERAL_METHOD_ERROR ∨ e = .UNSUPPORTED_METHOD_ERROR ∨ e = .START_LINE_END_ERROR := by
  rcases lineScan_cases w with ⟨o, ho, hb, hs, hscan⟩ | ⟨o, ho, hb, hs, hscan⟩ | ⟨-, ⟨-, hscan⟩ | hscan⟩
  · exact .inr (.inr ((gapScan_leadsTo _).fails _ (hscan.symm.trans h)))
  · exact .inr (.inl (LineScan.fails.inj (h.symm.trans hscan)))
  · cases hscan.symm.trans h
  · exact .inl (LineScan.fails.inj (h.symm.trans hscan))

/-- The scan waits just where more bytes can still make a start line, or a method that is not
supported. -/
theorem lineScan_waits_iff : lineScan w = .waits ↔ CanGoOn w := by
  constructor
  · intro h
    rcases lineScan_cases w with ⟨o, ho, hb, hs, hscan⟩ | ⟨o, ho, hb, hs, hscan⟩ | ⟨hnone, ⟨hshort, -⟩ | hscan⟩
    · obtain ⟨v, hv, hp⟩ := (gapScan_leadsTo _).waits (hscan.symm.trans h)
      obtain ⟨d, hd⟩ := exists_lineForm ho hs (hb.map_take ho) hp
      refine ⟨v, hv, .inl ⟨d, ?_⟩⟩
      rw [← hd, ← List.append_assoc, List.take_append_drop]
    · cases hscan.symm.trans h
    · obtain ⟨o, ho, hlen⟩ := hshort
      -- The bytes are the beginning of a method, which its rest completes.
      have htake := map_take_matched o.1 w
      rw [hlen, List.take_length, List.map_take, methodWords_upper o ho] at htake
      have hlt : w.length < o.1.length :=
        Nat.lt_of_le_of_ne (hlen ▸ matched_le_left o.1 w) fun heq => hnone o ho (hlen.trans heq)
      have hdrop : o.1.drop w.length ≠ [] := by
        rw [ne_eq, List.drop_eq_nil_iff]
        omega
      have hword : (w ++ o.1.drop w.length).map toupper = o.1 := by
        rw [List.map_append, htake, List.map_drop, methodWords_upper o ho, List.take_append_drop]
      cases hs : isSupported o.2 with
      | false => exact ⟨_, hdrop, .inr ⟨o, ho, hs, hword⟩⟩
      | true =>
        obtain ⟨v, hv, hp⟩ := (gapScan_leadsTo []).waits rfl
        obtain ⟨d, hd⟩ := exists_lineForm ho hs hword hp
        refine ⟨o.1.drop w.length ++ v, List.append_ne_nil_of_left_ne_nil hdrop v, .inl ⟨d, ?_⟩⟩
        rw [← hd, List.append_assoc]
        rfl
    · cases hscan.symm.trans h
  · rintro ⟨v, hv, hmore⟩
    by_contra hnot
    -- A line that is decided stays so, whatever comes behind it.
    have hstable := stable_lineScan w v hnot
    rcases hmore with ⟨d, hd⟩ | ⟨o, ho, hs, hword⟩
    · have hpass : lineScan (w ++ v) = .passes [] := by
        rw [hd, ← List.append_nil d.bytes]
        exact d.lineScan_bytes []
      rw [hpass] at hstable
      cases hscan : lineScan w with
      | waits => exact hnot hscan
      | fails e =>
        rw [hscan] at hstable
        cases hstable
      | passes rest =>
        rw [hscan] at hstable
        exact hv (List.append_eq_nil_iff.mp (LineScan.passes.inj hstable).symm).2
    · have hlen : (w ++ v).length = o.1.length := by rw [← hword, List.length_map]
      have hb : BeginsWith (w ++ v) o := by
        refine (matched_eq_length_iff _ _).mpr ?_
        rw [← hlen, List.take_length, methodWords_upper o ho]
        exact hword
      have hfails := lineScan_unsupported_iff.mpr ⟨o, ho, hs, hb⟩
      rw [hfails] at hstable
      cases hscan : lineScan w with
      | waits => exact hnot hscan
      | passes rest =>
        rw [hscan] at hstable
        cases hstable
      | fails e =>
        rw [hscan] at hstable
        obtain rfl := LineScan.fails.inj hstable
        obtain ⟨o', ho', -, hb'⟩ := lineScan_unsupported_iff.mp hscan
        obtain rfl := hb'.unique ho' ho hb (List.prefix_append w v)
        have hle := hb'.length_le
        have hpos := List.length_pos_of_ne_nil hv
        rw [List.length_append] at hlen
        omega

end Line

/-! ## Valid start lines -/

/-- A start line of HTTP/1.0 or HTTP/1.1 with a method that is supported. -/
def ValidLine (l : List UInt8) : Prop :=
  ∃ m g₁ t g₂ v, m.map toupper ∈ [lit "GET", lit "HEAD", lit "POST"] ∧
    (g₁ ≠ [] ∧ ∀ c ∈ g₁, c = SP ∨ c = HT) ∧
    (t ≠ [] ∧ ∀ c ∈ t, c ≠ SP ∧ c ≠ HT ∧ c ≠ CR ∧ c ≠ LF) ∧
    (g₂ ≠ [] ∧ ∀ c ∈ g₂, c = SP ∨ c = HT) ∧
    v.map toupper ∈ [lit "HTTP/1.0", lit "HTTP/1.1"] ∧
    l = m ++ (g₁ ++ (t ++ (g₂ ++ (v ++ [CR, LF]))))

theorem isBlank_iff {c : UInt8} : isBlank c = true ↔ c = SP ∨ c = HT := by
  unfold isBlank
  rw [Bool.or_eq_true, beq_iff_eq, beq_iff_eq]

theorem isBlank_false_iff {c : UInt8} : isBlank c = false ↔ c ≠ SP ∧ c ≠ HT := by
  rw [← Bool.not_eq_true, isBlank_iff, not_or]

/-- A version of HTTP/1.0 or HTTP/1.1 is one the parser takes. -/
theorem versionForm_of_eq {v : List UInt8}
    (h : v.map toupper = lit "HTTP/1.0" ∨ v.map toupper = lit "HTTP/1.1") : VersionForm v := by
  refine .inr ⟨?_, ?_⟩
  · rcases h with h | h <;> rw [← List.length_map (f := toupper), h] <;> rfl
  · rw [List.map_take]
    rcases h with h | h <;> rw [h] <;> rfl

/-- A valid line is the bytes of a strict start line. -/
theorem validLine_iff {l : List UInt8} : ValidLine l ↔ ∃ d : LineForm, d.Strict ∧ l = d.bytes := by
  constructor
  · rintro ⟨m, g₁, t, g₂, v, hm, ⟨hg₁ne, hg₁⟩, ⟨htne, ht⟩, ⟨hg₂ne, hg₂⟩, hv, rfl⟩
    have hoption : ∀ m ∈ [lit "GET", lit "HEAD", lit "POST"], ∃ o ∈ methodOption,
        isSupported o.2 = true ∧ m = o.1 := by decide +kernel
    obtain ⟨o, ho, hs, heq⟩ := hoption _ hm
    have hversion : v.map toupper = lit "HTTP/1.0" ∨ v.map toupper = lit "HTTP/1.1" := by
      rcases List.mem_cons.mp hv with hv | hv
      · exact .inl hv
      · exact .inr (List.mem_singleton.mp hv)
    exact ⟨{ type := o.2, method := m, gap₁ := g₁, target := t, gap₂ := g₂, version := v, supported := hs,
             method_eq := by rw [heq]; exact ho, gap₁_blank := fun c hc => isBlank_iff.mpr (hg₁ c hc),
             target_ne := htne,
             target_ok := fun c hc => isBlank_false_iff.mpr ⟨(ht c hc).1, (ht c hc).2.1⟩, gap₂_ne := hg₂ne,
             gap₂_blank := fun c hc => isBlank_iff.mpr (hg₂ c hc), version_ok := versionForm_of_eq hversion },
      ⟨hg₁ne, fun c hc => (ht c hc).2.2, hversion⟩, rfl⟩
  · rintro ⟨d, hd, rfl⟩
    have hoption : ∀ o ∈ methodOption, isSupported o.2 = true → o.1 ∈ [lit "GET", lit "HEAD", lit "POST"] := by
      decide +kernel
    refine ⟨d.method, d.gap₁, d.target, d.gap₂, d.version, hoption _ d.method_eq d.supported,
      ⟨hd.gap₁_ne, fun c hc => isBlank_iff.mp (d.gap₁_blank c hc)⟩, ⟨d.target_ne, fun c hc => ?_⟩,
      ⟨d.gap₂_ne, fun c hc => isBlank_iff.mp (d.gap₂_blank c hc)⟩, ?_, rfl⟩
    · obtain ⟨hsp, hht⟩ := isBlank_false_iff.mp (d.target_ok c hc)
      exact ⟨hsp, hht, hd.target_ok c hc⟩
    · rcases hd.version_eq with hv | hv <;> rw [hv]
      · exact List.mem_cons_self
      · exact List.mem_cons_of_mem _ List.mem_cons_self

end HttpProxy
