import HttpProxy.ResponseRuns
import Mathlib.Data.List.TakeWhile

/-!
# Response heads, and how far the parser gets in one

A head is a status line and header lines. A header line is a field the parser looks at, with its
name at the start of the line, or any other text, in which none of these names is found: a
recognised field stands at a line start only. `ResponseHead.bytes` writes the head out, with the
empty line that ends it.

`through_head` is the run of the parser over a head: it comes to the CR that ends the last line
knowing of the status, the length and the chunks what the head says. In one case that CR is gone:
the text of the last line took it along (`ScanText.swallows`).
-/

namespace HttpProxy

/-- Bytes of one line. -/
def IsText (t : List UInt8) : Prop := ∀ c ∈ t, c ≠ 0 ∧ c ≠ CR ∧ c ≠ LF

instance (t : List UInt8) : Decidable (IsText t) :=
  inferInstanceAs (Decidable (∀ c ∈ t, c ≠ 0 ∧ c ≠ CR ∧ c ≠ LF))

theorem IsText.zero {t : List UInt8} (h : IsText t) : 0 ∉ t := fun h0 => (h 0 h0).1 rfl

theorem IsText.cr {t : List UInt8} (h : IsText t) : CR ∉ t := fun h0 => (h CR h0).2.1 rfl

/-- A part of a text is a text. -/
theorem IsText.right {u v : List UInt8} (h : IsText (u ++ v)) : IsText v :=
  fun c hc => h c (List.mem_append_right u hc)

/-- Text in which the parser finds no field. -/
def Nameless (t : List UInt8) : Prop := ∀ k : HeaderField, ¬ Mentions k.name t

instance (t : List UInt8) : Decidable (Nameless t) :=
  decidable_of_iff
    (∀ k ∈ [HeaderField.connection, .contentLength, .contentEncoding, .contentType, .transferEncoding],
      ¬ Mentions k.name t)
    ⟨fun h k => h k (by cases k <;> decide), fun h k _ => h k⟩

/-- A part of a text without names has no names. -/
theorem Nameless.right {u v : List UInt8} (h : Nameless (u ++ v)) : Nameless v :=
  fun k hk => h k (hk.mono u)

/-- A field the parser looks at. -/
structure FieldLine where
  field : HeaderField
  name : List UInt8
  blanks : List UInt8
  value : List UInt8
  name_eq : name.map toupper = field.name
  allBlank : ∀ c ∈ blanks, isBlank c = true
  head : ∀ c ∈ value.head?, isBlank c = false
  isText : IsText value
  /-- A length is a number, behind which there may be blanks. -/
  isLength : field = .contentLength →
    value.takeWhile isdigit ≠ [] ∧ ∀ c ∈ value.dropWhile isdigit, isBlank c = true
  /-- The parser drops the value of `Connection`, and goes through the others. -/
  nameless : field ≠ .connection → Nameless value

/-- Any other line. -/
structure PlainLine where
  bytes : List UInt8
  ne_nil : bytes ≠ []
  isText : IsText bytes
  nameless : Nameless bytes

inductive HeaderLine
  | field (l : FieldLine)
  | plain (l : PlainLine)

namespace HeaderLine

def bytes : HeaderLine → List UInt8
  | field l => l.name ++ (l.blanks ++ l.value)
  | plain l => l.bytes

/-- The number a `Content-Length` field gives. -/
def length? : HeaderLine → Option Int
  | field l => if l.field = .contentLength then some (Radix.dec.valueOf (l.value.takeWhile isdigit)) else none
  | plain _ => none

/-- A `Transfer-Encoding` field whose value begins with `chunked`, in any case. -/
def beginsChunked : HeaderLine → Bool
  | field l => l.field = .transferEncoding && (lit "CHUNKED").isPrefixOf (l.value.map toupper)
  | plain _ => false

end HeaderLine

/-- A response head. -/
structure ResponseHead where
  version : List UInt8
  blanks : List UInt8
  /-- The digits of the status code. -/
  status : List UInt8
  reason : List UInt8
  lines : List HeaderLine
  version_eq : version.map toupper = lit "HTTP/1.0" ∨ version.map toupper = lit "HTTP/1.1"
  blanks_ne_nil : blanks ≠ []
  allBlank : ∀ c ∈ blanks, isBlank c = true
  status_ne_nil : status ≠ []
  allDigits : ∀ c ∈ status, isdigit c = true
  status_lt : Radix.dec.valueOf status < 2 ^ 31
  reason_head : ∀ c ∈ reason.head?, c = SP
  isText : IsText reason
  nameless : Nameless reason
  oneLength : (lines.filterMap HeaderLine.length?).length ≤ 1

namespace ResponseHead

/-- The head without the line ends behind its last line. -/
def start (h : ResponseHead) : List UInt8 := h.version ++ (h.blanks ++ (h.status ++ h.reason))

def linesBytes (ls : List HeaderLine) : List UInt8 := ls.flatMap fun l => [CR, LF] ++ l.bytes

/-- The head as it is sent. -/
def bytes (h : ResponseHead) : List UInt8 := h.start ++ (linesBytes h.lines ++ [CR, LF, CR, LF])

def statusCode (h : ResponseHead) : Int := Radix.dec.valueOf h.status

def contentLength (h : ResponseHead) : Option Int := (h.lines.filterMap HeaderLine.length?).getLast?

end ResponseHead

/-! ## Through a text -/

/-- In front of a CR the loop comes from `rd` to `rd'` through the text `t`; the CR is still there, or
it was read with the text. -/
def Through (k : Nat) (rd : ResponseData) (t : List UInt8) (rd' : ResponseData) : Prop :=
  (∃ w, Leads k rd t rd' [CR] w) ∨ ∃ w, Leads k rd (t ++ [CR]) rd' [] w

section Through

variable {k k' : Nat} {rd rd' rd'' : ResponseData} {t u w : List UInt8}

/-- A run in fewer iterations is one in more. -/
theorem Through.mono (h : Through k rd t rd') (hk : k ≤ k') : Through k' rd t rd' := by
  obtain ⟨w, h⟩ | ⟨w, h⟩ := h
  · exact .inl ⟨w, h.mono hk⟩
  · exact .inr ⟨w, h.mono hk⟩

/-- A run and one through the text behind it. -/
theorem Leads.through (h : Leads k rd u rd' (t ++ [CR]) w) (h' : Through k' rd' t rd'') :
    Through (k + k') rd (u ++ t) rd'' := by
  obtain ⟨w', h'⟩ | ⟨w', h'⟩ := h'
  · exact .inl ⟨w ++ w', h.trans h'⟩
  · refine .inr ⟨w ++ w', ?_⟩
    rw [List.append_assoc]
    exact Leads.trans (by rwa [List.append_nil]) h'

/-- The next line, from wherever the one before it left the parser. -/
theorem Through.line (h : Through k rd t rd') (hp : rd'.parserState = .RES_HEADERS) {x : UInt8}
    (hx : x ≠ 0) (hcr : x ≠ CR) (h' : Through k' rd' (x :: u) rd'') :
    Through (k + k') rd (t ++ ([CR, LF] ++ x :: u)) rd'' := by
  obtain ⟨w, h⟩ | ⟨w, h⟩ := h
  · have hskip := leads_skips hp (skips_crlf hx hcr)
    have hline : Through (0 + k') rd' ([CR, LF] ++ x :: u) rd'' := (hskip.extend (u ++ [CR])).through h'
    rw [Nat.zero_add] at hline
    exact (h.extend ([LF] ++ x :: u ++ [CR])).through hline
  · have hskip := leads_skips hp (skips_lf ((x :: u) ++ [CR]))
    have hline : Through (0 + k') rd' ([LF] ++ x :: u) rd'' := hskip.through h'
    rw [Nat.zero_add] at hline
    have hall := (h.extend (([LF] ++ x :: u) ++ [CR])).through hline
    rwa [List.append_assoc] at hall

end Through

/-! ## What is known so far -/

/-- In the headers, after the lines `ls` of a response with that status. -/
structure Knows (withTransf : Bool) (status : Int) (ls : List HeaderLine) (rd : ResponseData) : Prop where
  parserState : rd.parserState = .RES_HEADERS
  withTransf : rd.withTransf = withTransf
  status : rd.status = status
  isChunked : rd.isChunked = ls.any HeaderLine.beginsChunked
  bodyLength : rd.bodyLength = (ls.filterMap HeaderLine.length?).getLast?.elim NO_BODY_LENGTH toInt32

section Knows

variable {withTransf : Bool} {status : Int} {ls : List HeaderLine} {rd : ResponseData}

/-- Blanks are gone through, and written as one space. -/
theorem leads_blanks (hp : rd.parserState = .RES_SPACE_TRANSITION) {b v : List UInt8}
    (hb : ∀ c ∈ b, isBlank c = true) (hv : IsText v) (hhead : ∀ c ∈ v.head?, isBlank c = false) :
    Leads 1 rd b (rd.goto rd.next) (v ++ [CR]) [SP] := by
  cases v with
  | nil => exact leads_spaces hp hb (by decide) (by decide)
  | cons x v => exact leads_spaces hp hb (hhead x rfl) (hv x List.mem_cons_self).1

/-- A text as its blanks and what stands behind them. -/
theorem exists_blanks (t : List UInt8) :
    ∃ b v, t = b ++ v ∧ (∀ c ∈ b, isBlank c = true) ∧ ∀ c ∈ v.head?, isBlank c = false := by
  refine ⟨t.takeWhile isBlank, t.dropWhile isBlank, List.takeWhile_append_dropWhile.symm,
    fun c hc => List.mem_takeWhile_imp hc, fun c hc => ?_⟩
  have := List.head?_dropWhile_not isBlank t
  rw [Option.mem_def.mp hc] at this
  exact Bool.eq_false_iff.mpr (by simpa using this)

/-- The value of a `Connection` field, or of what passes for one. -/
theorem leads_connectionValue (hp : rd.parserState = .RES_SPACE_TRANSITION)
    (hn : rd.next = .CONNECTION_CHECK) {b v : List UInt8} (hb : ∀ c ∈ b, isBlank c = true)
    (hv : IsText v) (hhead : ∀ c ∈ v.head?, isBlank c = false) :
    Leads 2 rd (b ++ v) (rd.goto rd.next).closes [CR] ([SP] ++ lit "close") :=
  (leads_blanks hp hb hv hhead).trans (leads_connection hn hv.zero hv.cr [])

/-- Through a text without names the parser learns nothing. -/
theorem Knows.text (h : Knows withTransf status ls rd) {t : List UInt8} (ht : IsText t)
    (hn : Nameless t) : ∃ rd', Knows withTransf status ls rd' ∧ Through 3 rd t rd' := by
  cases scan_text ht.zero ht.cr hn with
  | skips scan => exact ⟨rd, h, .inl ⟨t, (leads_skips h.parserState scan).mono (Nat.zero_le 3)⟩⟩
  | swallows _ scan =>
    exact ⟨rd, h, .inr ⟨t ++ [CR], (leads_skips h.parserState scan).mono (Nat.zero_le 3)⟩⟩
  | @finds w v _ split scan =>
    subst split
    have hname := leads_finds h.parserState (by decide) (by decide) scan
    obtain ⟨b, v, rfl, hb, hhead⟩ := exists_blanks v
    have hvalue := leads_connectionValue (show (rd.found .CONNECTION_CHECK).parserState = _ from rfl)
      rfl hb (IsText.right (IsText.right ht)) hhead
    refine ⟨((rd.found .CONNECTION_CHECK).goto .CONNECTION_CHECK).closes, ?_,
      .inl ⟨_, hname.trans hvalue⟩⟩
    exact ⟨rfl, h.withTransf, h.status, h.isChunked, h.bodyLength⟩

/-- What a line tells of the body. -/
theorem Knows.snoc {l : HeaderLine} {rd' : ResponseData} (h : Knows withTransf status ls rd)
    (hp : rd'.parserState = .RES_HEADERS) (ht : rd'.withTransf = rd.withTransf)
    (hs : rd'.status = rd.status) (hc : rd'.isChunked = (rd.isChunked || l.beginsChunked))
    (hb : rd'.bodyLength = l.length?.elim rd.bodyLength toInt32) :
    Knows withTransf status (ls ++ [l]) rd' := by
  refine ⟨hp, ht.trans h.withTransf, hs.trans h.status, ?_, ?_⟩
  · rw [hc, h.isChunked, List.any_append, List.any_cons, List.any_nil, Bool.or_false]
  · rw [hb, h.bodyLength, List.filterMap_append]
    cases hl : l.length? with
    | none => simp only [List.filterMap_cons_none hl, List.filterMap_nil, List.append_nil, Option.elim_none]
    | some n =>
      simp only [List.filterMap_cons_some hl, List.filterMap_nil, List.getLast?_append,
        List.getLast?_singleton, Option.elim_some]
      rfl

/-- A line that is neither a length nor a coding adds nothing to what is known. -/
theorem Knows.snoc_other {l : HeaderLine} {rd' : ResponseData} (h : Knows withTransf status ls rd)
    (hl : l.length? = none) (hn : l.beginsChunked = false) (hp : rd'.parserState = .RES_HEADERS)
    (ht : rd'.withTransf = rd.withTransf) (hs : rd'.status = rd.status)
    (hc : rd'.isChunked = rd.isChunked) (hb : rd'.bodyLength = rd.bodyLength) :
    Knows withTransf status (ls ++ [l]) rd' :=
  h.snoc hp ht hs (by rw [hc, hn, Bool.or_false]) (by rw [hb, hl]; rfl)

/-- Other fields give no length. -/
theorem length?_of_ne {l : FieldLine} (h : l.field ≠ .contentLength) :
    (HeaderLine.field l).length? = none := if_neg h

/-- Other fields do not begin with `chunked`. -/
theorem beginsChunked_of_ne {l : FieldLine} (h : l.field ≠ .transferEncoding) :
    (HeaderLine.field l).beginsChunked = false := by
  simp only [HeaderLine.beginsChunked, h, decide_false, Bool.false_and]

/-- A blank is no digit. -/
theorem not_isdigit_of_isBlank {c : UInt8} (h : isBlank c = true) : isdigit c = false := by
  simp only [isBlank, Bool.or_eq_true, beq_iff_eq] at h
  rcases h with rfl | rfl <;> rfl

/-- The digits of a length are read as its number. -/
theorem leads_lengthValue (hp : rd.parserState = .LENGTH_CHECK) {ds s : List UInt8} (hne : ds ≠ [])
    (hds : ∀ c ∈ ds, isdigit c = true) (hs : ∀ c ∈ s, isBlank c = true) (ht : IsText s) :
    Leads 1 rd ds
      { rd with bodyLength := toInt32 (Radix.dec.valueOf ds), parserState := .RES_HEADERS }
      (s ++ [CR]) ds := by
  cases s with
  | nil => exact leads_length hp hne hds (by decide) (by decide)
  | cons x s =>
    exact leads_length hp hne hds (not_isdigit_of_isBlank (hs x List.mem_cons_self))
      (ht x List.mem_cons_self).1

/-- What is written of the part `u` of a value that was looked at. -/
def FieldLine.checked (l : FieldLine) (u : List UInt8) : List UInt8 :=
  if l.field = .connection then lit "close" else u

/-- What a value tells: a part `u` of it is looked at, of a `Connection` field all of it. -/
theorem Knows.check (h : Knows withTransf status ls rd) (l : FieldLine) :
    ∃ u v rd', l.value = u ++ v ∧ (l.field = .connection → v = []) ∧
      Knows withTransf status (ls ++ [.field l]) rd' ∧
      rd'.isClose = (rd.isClose || decide (l.field = .connection)) ∧
      Leads 1 ((rd.found l.field.check).goto l.field.check) u rd' (v ++ [CR]) (l.checked u) := by
  have hnone : l.field ≠ .contentLength → (HeaderLine.field l).length? = none := length?_of_ne
  have hfalse : l.field ≠ .transferEncoding → (HeaderLine.field l).beginsChunked = false :=
    beginsChunked_of_ne
  have hchecked : ∀ u, l.field ≠ .connection → l.checked u = u := fun u hne => if_neg hne
  cases hf : l.field with
  | connection =>
    -- The whole value is dropped, and `close` written in its place.
    have hvalue := leads_connection
      (show ((rd.found .CONNECTION_CHECK).goto .CONNECTION_CHECK).parserState = _ from rfl)
      l.isText.zero l.isText.cr []
    refine ⟨l.value, [], ((rd.found .CONNECTION_CHECK).goto .CONNECTION_CHECK).closes,
      (List.append_nil _).symm, fun _ => rfl, ?_, by simp [ResponseData.closes], ?_⟩
    · exact h.snoc_other (hnone (by simp [hf])) (hfalse (by simp [hf])) rfl rfl rfl rfl rfl
    · rw [FieldLine.checked, if_pos hf]
      exact hvalue
  | contentLength =>
    obtain ⟨hne, hblank⟩ := l.isLength hf
    -- The digits are taken as the length, and what is behind them passed on.
    have hsplit : l.value = l.value.takeWhile isdigit ++ l.value.dropWhile isdigit :=
      List.takeWhile_append_dropWhile.symm
    have hrest : IsText (l.value.dropWhile isdigit) := IsText.right (hsplit ▸ l.isText)
    have hcheck := leads_lengthValue
      (show ((rd.found .LENGTH_CHECK).goto .LENGTH_CHECK).parserState = _ from rfl) hne
      (fun c hc => List.mem_takeWhile_imp hc) hblank hrest
    replace hcheck := hcheck.writes (hchecked (l.value.takeWhile isdigit) (by simp [hf]))
    refine ⟨_, _, _, hsplit, nofun, h.snoc ?_ ?_ ?_ ?_ ?_, ?_, hcheck⟩
    · rfl
    · rfl
    · rfl
    · rw [hfalse (by simp [hf]), Bool.or_false]; rfl
    · rw [show (HeaderLine.field l).length? = _ from if_pos hf]; rfl
    · exact (Bool.or_false _).symm
  | contentEncoding =>
    obtain ⟨u, v, e, hsplit, hcheck⟩ := leads_encoding
      (show ((rd.found .ENCODING_CHECK).goto .ENCODING_CHECK).parserState = _ from rfl)
      l.isText.zero
    replace hcheck := hcheck.writes (hchecked u (by simp [hf]))
    refine ⟨u, v, _, hsplit, nofun, ?_, ?_, hcheck⟩
    · exact h.snoc_other (hnone (by simp [hf])) (hfalse (by simp [hf])) rfl rfl rfl rfl rfl
    · exact (Bool.or_false _).symm
  | contentType =>
    have hcheck := leads_type
      (show ((rd.found .TYPE_CHECK).goto .TYPE_CHECK).parserState = _ from rfl) (l.value ++ [CR])
    replace hcheck := hcheck.writes (hchecked [] (by simp [hf]))
    refine ⟨[], l.value, _, rfl, nofun, ?_, ?_, hcheck⟩
    · exact h.snoc_other (hnone (by simp [hf])) (hfalse (by simp [hf])) rfl rfl rfl rfl rfl
    · exact (Bool.or_false _).symm
  | transferEncoding =>
    obtain ⟨u, v, hsplit, hcheck⟩ := leads_chunked
      (show ((rd.found .CHUNKED_CHECK).goto .CHUNKED_CHECK).parserState = _ from rfl)
      l.isText.zero
    have hchunked : (HeaderLine.field l).beginsChunked =
        decide (lit "CHUNKED" <+: l.value.map toupper) := by
      simp only [HeaderLine.beginsChunked, hf, decide_true, Bool.true_and]
      rw [Bool.eq_iff_iff, List.isPrefixOf_iff_prefix, decide_eq_true_iff]
    replace hcheck := hcheck.writes (hchecked u (by simp [hf]))
    refine ⟨u, v, _, hsplit, nofun, h.snoc ?_ ?_ ?_ ?_ ?_, ?_, hcheck⟩
    · rfl
    · rfl
    · rfl
    · rw [hchunked]; rfl
    · rw [hnone (by simp [hf])]; rfl
    · exact (Bool.or_false _).symm

/-- In front of a value, what was read of the line is its name and the blanks, of which one space is
written. -/
theorem leads_field (hp : rd.parserState = .RES_HEADERS) (l : FieldLine) :
    Leads 2 rd (l.name ++ l.blanks) ((rd.found l.field.check).goto l.field.check) (l.value ++ [CR])
      (l.name ++ [SP]) := by
  have hne : l.field.check ≠ .RES_HEADERS ∧ l.field.check ≠ .RES_FINISHED := by
    cases l.field <;> decide
  have hname := leads_finds hp hne.1 hne.2
    (finds_name l.field l.name_eq (l.blanks ++ (l.value ++ [CR])))
  exact hname.trans (leads_blanks rfl l.allBlank l.isText l.head)

theorem nameless_nil : Nameless [] := by decide

/-- Behind a field the parser knows what it says. -/
theorem Knows.field (h : Knows withTransf status ls rd) (l : FieldLine) :
    ∃ rd', Knows withTransf status (ls ++ [.field l]) rd' ∧
      Through 6 rd (HeaderLine.field l).bytes rd' := by
  obtain ⟨u, v, rd₁, hsplit, hnil, hknows, -, hcheck⟩ := h.check l
  have hnameless : Nameless v := by
    by_cases hf : l.field = .connection
    · rw [hnil hf]
      exact nameless_nil
    · exact Nameless.right (hsplit ▸ l.nameless hf)
  obtain ⟨rd', hknows', hrest⟩ := hknows.text (IsText.right (hsplit ▸ l.isText)) hnameless
  refine ⟨rd', hknows', ?_⟩
  have hvalue := hcheck.through hrest
  rw [← hsplit] at hvalue
  have hline := (leads_field h.parserState l).through hvalue
  rw [List.append_assoc] at hline
  exact hline.mono (by decide)

/-- Behind a line the parser knows what it says. -/
theorem Knows.line (h : Knows withTransf status ls rd) (l : HeaderLine) :
    ∃ rd', Knows withTransf status (ls ++ [l]) rd' ∧ Through 6 rd l.bytes rd' := by
  cases l with
  | field l => exact h.field l
  | plain l =>
    obtain ⟨rd', hknows, htext⟩ := h.text l.isText l.nameless
    exact ⟨rd', hknows.snoc_other rfl rfl hknows.parserState rfl rfl rfl rfl,
      htext.mono (by decide)⟩

end Knows

/-! ## Through a head -/

/-- A field begins with a byte that is neither a zero nor a CR. -/
theorem FieldLine.exists_cons (l : FieldLine) :
    ∃ x u, (HeaderLine.field l).bytes = x :: u ∧ x ≠ 0 ∧ x ≠ CR := by
  have hhead : ∀ k : HeaderField, ∃ y v, k.name = y :: v ∧ y ≠ 0 ∧ y ≠ CR := by
    intro k
    cases k <;> exact ⟨_, _, rfl, by decide, by decide⟩
  obtain ⟨y, v, hname, hy, hcr⟩ := hhead l.field
  obtain ⟨x, u, hx, hxy, -⟩ := List.map_eq_cons_iff.mp (l.name_eq.trans hname)
  refine ⟨x, u ++ (l.blanks ++ l.value), by rw [HeaderLine.bytes, hx]; rfl,
    ne_zero_of_toupper hxy hy, ?_⟩
  rintro rfl
  exact hcr (hxy.symm.trans rfl)

/-- A line begins with a byte that is neither a zero nor a CR. -/
theorem HeaderLine.exists_cons (l : HeaderLine) :
    ∃ x u, l.bytes = x :: u ∧ x ≠ 0 ∧ x ≠ CR := by
  cases l with
  | field l => exact l.exists_cons
  | plain l =>
    obtain ⟨x, u, hx⟩ := List.exists_cons_of_ne_nil l.ne_nil
    have htext := l.isText x (hx ▸ List.mem_cons_self)
    exact ⟨x, u, hx, htext.1, htext.2.1⟩

/-- A line has three bytes at least, with its line end. -/
theorem ResponseHead.length_linesBytes (ls : List HeaderLine) :
    3 * ls.length ≤ (linesBytes ls).length := by
  induction ls with
  | nil => exact Nat.le_refl 0
  | cons l ls ih =>
    obtain ⟨x, u, hx, -, -⟩ := l.exists_cons
    rw [linesBytes, List.flatMap_cons, hx]
    simp only [List.length_append, List.length_cons, List.length_nil]
    change _ ≤ _ + (linesBytes ls).length
    omega

/-- A head has three bytes at least for each of its lines. -/
theorem ResponseHead.length_lines (h : ResponseHead) : 3 * h.lines.length ≤ h.bytes.length := by
  have hlines := length_linesBytes h.lines
  simp only [bytes, List.length_append]
  omega

/-- Behind all its lines the parser knows what they say. The induction is on the lines still to
come. -/
theorem Knows.lines {withTransf : Bool} {status : Int} {rd rd' : ResponseData} {k : Nat}
    {t : List UInt8} {ls : List HeaderLine} (h : Knows withTransf status ls rd')
    (ht : Through k rd t rd') (rest : List HeaderLine) :
    ∃ rd'', Knows withTransf status (ls ++ rest) rd'' ∧
      Through (k + 6 * rest.length) rd (t ++ ResponseHead.linesBytes rest) rd'' := by
  induction rest generalizing ls rd' k t with
  | nil =>
    rw [List.append_nil]
    refine ⟨rd', h, ?_⟩
    rw [ResponseHead.linesBytes, List.flatMap_nil, List.append_nil]
    exact ht
  | cons l rest ih =>
    obtain ⟨rd₁, hknows, hline⟩ := h.line l
    obtain ⟨x, u, hx, hx0, hcr⟩ := l.exists_cons
    rw [hx] at hline
    have hthrough := ht.line h.parserState hx0 hcr hline
    rw [← hx] at hthrough
    obtain ⟨rd'', hknows', hrest⟩ := ih hknows hthrough
    refine ⟨rd'', by rwa [List.append_assoc] at hknows', ?_⟩
    rw [ResponseHead.linesBytes, List.flatMap_cons, ← List.append_assoc, List.length_cons,
      show k + 6 * (rest.length + 1) = k + 6 + 6 * rest.length by omega]
    exact hrest

/-- The response data a response starts with. -/
def responseStart (withTransf : Bool) : ResponseData := { withTransf := withTransf }

namespace ResponseHead

variable (h : ResponseHead) (withTransf : Bool)

/-- The response data behind the status. -/
def afterStatus (version : HttpVersion) : ResponseData :=
  { responseStart withTransf with
    version := version
    next := .STATUS
    status := h.statusCode
    parserState := .RES_HEADERS }

/-- A status code is not negative. -/
theorem statusCode_nonneg : 0 ≤ h.statusCode :=
  Radix.dec_lawful.le_valueFrom (Int.le_refl 0) h.allDigits

/-- Behind the status the parser knows it, and no line yet. -/
theorem knows_afterStatus (version : HttpVersion) :
    Knows withTransf h.statusCode [] (h.afterStatus withTransf version) :=
  ⟨rfl, rfl, rfl, rfl, rfl⟩

/-- The version, the blanks and the status code are gone through in three iterations. -/
theorem leads_start :
    ∃ version, Leads 3 (responseStart withTransf) (h.version ++ (h.blanks ++ h.status))
      (h.afterStatus withTransf version) (h.reason ++ [CR]) (h.version ++ ([SP] ++ h.status)) := by
  obtain ⟨d, hd, hversion⟩ : ∃ d, (d = 0x30 ∨ d = 0x31) ∧
      h.version.map toupper = lit "HTTP/1." ++ [d] := by
    rcases h.version_eq with hv | hv
    · exact ⟨0x30, .inl rfl, hv⟩
    · exact ⟨0x31, .inr rfl, hv⟩
  obtain ⟨x, ds, hstatus⟩ := List.exists_cons_of_ne_nil h.status_ne_nil
  have hx : isdigit x = true := h.allDigits x (hstatus ▸ List.mem_cons_self)
  obtain ⟨y, v, hrest, hy, hy0⟩ : ∃ y v, h.reason ++ [CR] = y :: v ∧ isdigit y = false ∧ y ≠ 0 := by
    cases hreason : h.reason with
    | nil => exact ⟨CR, [], rfl, rfl, by decide⟩
    | cons y v =>
      obtain rfl : y = SP := h.reason_head y (by rw [hreason]; rfl)
      exact ⟨SP, v ++ [CR], rfl, rfl, by decide⟩
  have hblank : isBlank x = false := Bool.eq_false_iff.mpr fun hb => by
    rw [not_isdigit_of_isBlank hb] at hx
    exact absurd hx (by decide)
  refine ⟨if d = 0x30 then .v1_0 else .v1_1, ?_⟩
  have hleads₁ := leads_version (show (responseStart withTransf).parserState = _ from rfl) hd hversion
    ((h.blanks ++ h.status) ++ (h.reason ++ [CR]))
  generalize (if d = 0x30 then HttpVersion.v1_0 else .v1_1) = version at hleads₁ ⊢
  have hleads₂ := leads_spaces
    (show (({ responseStart withTransf with version := version } : ResponseData).found
      .STATUS).parserState = _ from rfl)
    h.allBlank hblank (ne_zero_of_isdigit hx) (v := ds ++ (h.reason ++ [CR]))
  have hleads₃ := leads_status
    (show ((({ responseStart withTransf with version := version } : ResponseData).found
      .STATUS).goto .STATUS).parserState = _ from rfl)
    h.status_ne_nil h.allDigits hy hy0 (v := v)
  rw [← List.cons_append, ← hstatus] at hleads₂
  have hcode : toInt32 (Radix.dec.valueOf h.status) = h.statusCode :=
    toInt32_eq (Int.le_trans (by decide) h.statusCode_nonneg) h.status_lt
  rw [← hrest, hcode] at hleads₃
  exact hleads₁.trans (hleads₂.trans hleads₃)

/-- The run over a head, to the CR that ends its last line. -/
theorem through_head : ∃ rd, Knows withTransf h.statusCode h.lines rd ∧
    Through (6 + 6 * h.lines.length) (responseStart withTransf) (h.start ++ linesBytes h.lines) rd := by
  obtain ⟨version, hstart⟩ := h.leads_start withTransf
  obtain ⟨rd, hknows, hreason⟩ := (h.knows_afterStatus withTransf version).text h.isText h.nameless
  have hthrough := hstart.through hreason
  rw [List.append_assoc, List.append_assoc] at hthrough
  exact hknows.lines hthrough h.lines

end ResponseHead

end HttpProxy
