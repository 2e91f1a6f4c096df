import HttpProxy.RequestAnnouncing

/-!
# What the parser pushes back

When the parser runs out of input it pushes the bytes of an unfinished word back into the reserved
zone of its input buffer, one function after another, each in front of what its callee pushed back.
`checkRequestPushes` lists these push-backs, with the buffer each finds; `buffer_write_reverse` drops
a byte it finds no room for.

The push-backs of a call come to what the machine keeps of the word it is in
(`ReqMachine.pushBack`). All of them are stored unless the input ends inside a port that is too long
with its host: the word is then the host, a `:` and the digits, and only the first two are sure to fit.
-/

namespace HttpProxy

open ReqMachine (optionsFor)

/-- One call of `writeToBufReverse`, `writePrefix` or `writeDecToBufReverse`: the buffer it finds
and the bytes it pushes back, the last byte first. -/
structure PushBack where
  b : Buffer
  bytes : List UInt8
deriving DecidableEq, Repr

/-- `buffer_write_reverse` is never reached with `read = data`. -/
def Buffer.StoresAll (b : Buffer) : List UInt8 → Prop
  | [] => True
  | _ :: l => b.StoresAll l ∧ bufferCanWriteReverse (b.pushBack l) = true

def PushBack.Stores (p : PushBack) : Prop := p.b.StoresAll p.bytes

instance Buffer.decidableStoresAll (b : Buffer) : ∀ l, Decidable (b.StoresAll l)
  | [] => isTrue trivial
  | _ :: l => @instDecidableAnd _ _ (decidableStoresAll b l) inferInstance

instance PushBack.decidableStores (p : PushBack) : Decidable p.Stores :=
  Buffer.decidableStoresAll p.b p.bytes

/-! ## The push-backs of each function -/

/-- The push-backs of `matchFormat`. -/
def matchFormatPushes (format pre : List UInt8) (io : Io) : List PushBack :=
  let (rest, i, c, io) := matchFormatLoop true format 0 0 io
  if rest ≠ [] ∧ c = 0 then
    [⟨io.b, format.take i⟩, ⟨writeToBufReverse format io.b i, pre⟩]
  else []

/-- The push-backs of `getNumber`. -/
def getNumberPushes (pre : List UInt8) (io : Io) : List PushBack :=
  let c := bufferPeek io.b
  if c ≠ 0 ∧ Radix.dec.isDigit c = false then []
  else
    let (currentNum, io) := numberLoop .dec true io.b.bytes.length 0 io
    if bufferPeek io.b = 0 then
      [⟨io.b, digitsOf .dec currentNum⟩, ⟨writeDecToBufReverse currentNum io.b, pre⟩]
    else []

def extractHttpMethodLoopPushes (c : UInt8) :
    List (List UInt8 × HttpMethod) → Io → List PushBack
  | [], _ => []
  | (name, _) :: rest, io =>
    if name.headD 0 = c then
      let pushes := matchFormatPushes name.tail [c] io
      let (ok, io) := matchFormat name.tail [c] io
      if ok then pushes
      else if io.isBufferEmpty then pushes
      else pushes ++ extractHttpMethodLoopPushes c rest io
    else extractHttpMethodLoopPushes c rest io

def extractHttpMethodPushes (s : ReqState) : List PushBack :=
  let r := readAndWrite s.io
  let c := toupper r.1
  if c = 0 then [] else extractHttpMethodLoopPushes c methodOption r.2

/-- The push-backs of `checkUriForHost` and, without user information, of `extractHost`. -/
def readHostPushes (userinfo : Bool) (s : ReqState) : List PushBack :=
  let t := hostLoop userinfo (s.io.b.bytes.length + 1) ⟨0, 0, s.rData.host, s.io⟩
  let pushes := if t.c = 0x3a then getNumberPushes (lit ":") (readAndWrite t.io).2 else []
  let (validHost, s) := readPort t.c (s.withHost t)
  if t.c = 0 ∨ (validHost = false ∧ s.io.isBufferEmpty = true) then
    pushes ++ [⟨s.io.b, s.rData.host.toList.take t.i⟩]
  else pushes

def checkUriForHostPushes (s : ReqState) : List PushBack := readHostPushes true s

def checkUriPushes (s : ReqState) : List PushBack :=
  let pushes := matchFormatPushes (lit "HTTP") [] s.io
  let (http, io) := matchFormat (lit "HTTP") [] s.io
  if http then
    let pushes := pushes ++ matchFormatPushes (lit "://") (lit "HTTP") io
    let (sep, io) := matchFormat (lit "://") (lit "HTTP") io
    if sep then pushes ++ checkUriForHostPushes (({ s with io := io } : ReqState).goto .URI_HOST)
    else pushes
  else pushes

def extractHttpVersionPushes (s : ReqState) : List PushBack :=
  let pushes := matchFormatPushes (lit "HTTP/1.") [] s.io
  let (ok, io) := matchFormat (lit "HTTP/1.") [] s.io
  if ok then
    let (c, io) := readAndWrite io
    if c ≠ 0 then pushes else pushes ++ [⟨io.b, lit "HTTP/1."⟩]
  else pushes

def checkStartLineEndPushes (s : ReqState) : List PushBack := matchFormatPushes [CR, LF] [] s.io

def checkLocalHostPushes (s : ReqState) : List PushBack :=
  let c := peekUpChar s.io.b
  if c = 0 then []
  else if c ≠ 0x58 then []
  else matchFormatPushes (lit "X-LOCALHOST:") [] s.io

/-- The push-backs of `checkLF(…, "\r", …) && checkCRLF(…, "\r\n", …)`. -/
def checkHeadersEndPushes (io : Io) : List PushBack :=
  let pushes := matchFormatPushes [LF] [CR] io
  let (lf, io) := checkLF [CR] io
  if lf then pushes ++ matchFormatPushes [CR, LF] [CR, LF] io else pushes

def checkHostHeaderLoopPushes : Nat → Io → List PushBack
  | 0, _ => []
  | fuel + 1, io =>
    let (c, io) := readAndWrite io
    let c := toupper c
    if c = 0 then []
    else if c = 0x48 then
      let pushes := matchFormatPushes (lit "OST:") (lit "H") io
      let (ok, io) := matchFormat (lit "OST:") (lit "H") io
      if ok then pushes
      else if io.isBufferEmpty then pushes
      else pushes ++ checkHostHeaderLoopPushes fuel io
    else if c = CR then
      let pushes := checkHeadersEndPushes io
      let (ok, io) := checkHeadersEnd io
      if ok then pushes
      else if io.isBufferEmpty then pushes
      else pushes ++ checkHostHeaderLoopPushes fuel io
    else checkHostHeaderLoopPushes fuel io

def checkHostHeaderPushes (s : ReqState) : List PushBack :=
  checkHostHeaderLoopPushes (s.io.b.bytes.length + 1) s.io

def extractHostPushes (s : ReqState) : List PushBack := readHostPushes false s

/-- The push-backs of one iteration of the loop. -/
def iterationPushes (s : ReqState) : List PushBack :=
  match s.rData.parserState with
  | .METHOD => extractHttpMethodPushes s
  | .URI => checkUriPushes s
  | .URI_HOST => checkUriForHostPushes s
  | .VERSION => extractHttpVersionPushes s
  | .START_LINE_END => checkStartLineEndPushes s
  | .LOCALHOST_HEADER_CHECK => checkLocalHostPushes s
  | .HEADERS => checkHostHeaderPushes s
  | .HOST => extractHostPushes s
  | .SPACE_TRANSITION | .RELATIVE_URI | .FINISHED => []

def requestLoopPushes : Nat → ReqState → List PushBack
  | 0, _ => []
  | fuel + 1, s =>
    iterationPushes s ++
      match loopBody s with
      | .inl s' => requestLoopPushes fuel s'
      | .inr _ => []

/-- The push-backs of a call of `checkRequest`, also of one that does not return. -/
def checkRequestPushes (rd : RequestData) (bIn : Buffer) : List PushBack :=
  requestLoopPushes (requestFuel bIn) (callStart rd bIn)

/-! ## Push-backs one in front of the other -/

/-- The push-backs go into `b` one after another, each in front of the last, and come to `p`. -/
inductive Buffer.Takes (b : Buffer) : List PushBack → List UInt8 → Prop
  | nil : b.Takes [] []
  | push {ps : List PushBack} {p : List UInt8} (h : b.Takes ps p) (q : List UInt8) :
      b.Takes (ps ++ [⟨b.pushBack p, q⟩]) (q ++ p)

/-- Every byte finds room exactly when there are as many places in front of `read`. -/
theorem Buffer.storesAll_iff (b : Buffer) (l : List UInt8) : b.StoresAll l ↔ l.length ≤ b.read := by
  induction l with
  | nil => exact iff_of_true trivial (Nat.zero_le _)
  | cons c l ih =>
    rw [StoresAll, ih, pushBack_eq]
    simp only [bufferCanWriteReverse, decide_eq_true_eq, List.length_cons]
    omega

/-- One after the other the push-backs find room exactly when all their bytes together do. -/
theorem Buffer.Takes.storesAll_iff {b : Buffer} {ps : List PushBack} {p : List UInt8}
    (h : b.Takes ps p) : (∀ x ∈ ps, x.Stores) ↔ p.length ≤ b.read := by
  induction h with
  | nil => exact iff_of_true (fun x hx => absurd hx List.not_mem_nil) (Nat.zero_le _)
  | @push ps p h q ih =>
    have hq : PushBack.Stores ⟨b.pushBack p, q⟩ ↔ q.length ≤ b.read - p.length := by
      rw [PushBack.Stores, Buffer.storesAll_iff, pushBack_eq]
    simp only [List.forall_mem_append, List.forall_mem_singleton, ih, hq, List.length_append]
    omega

/-! ## Where nothing is pushed back -/

/-- A function that ran out of input: it failed and set the flag. -/
def RanOut (r : Bool × ReqState) : Prop := r.1 = false ∧ r.2.io.isBufferEmpty = true

/-- `matchFormat` pushes back nothing unless it runs out of input. -/
theorem matchFormatPushes_eq_nil {format pre : List UInt8} {io : Io}
    (h : (matchFormat format pre io).1 = true ∨ (matchFormat format pre io).2.isBufferEmpty = false) :
    matchFormatPushes format pre io = [] := by
  unfold matchFormat matchFormatWith at h
  unfold matchFormatPushes
  generalize matchFormatLoop true format 0 0 io = r at h ⊢
  simp only at h ⊢
  split
  · next hc =>
    rw [if_pos hc] at h
    rcases h with h | h <;> cases h
  · rfl

/-- `getNumber` pushes back nothing unless it runs out of input. -/
theorem getNumberPushes_eq_nil {pre : List UInt8} {io : Io}
    (h : (getNumber pre io).1 ≠ none ∨ (getNumber pre io).2.isBufferEmpty = false) :
    getNumberPushes pre io = [] := by
  unfold getNumber getNumberWith at h
  unfold getNumberPushes
  simp only at h ⊢
  split
  · rfl
  · next hd =>
    rw [if_neg hd] at h
    split
    · next hc =>
      rw [if_pos hc] at h
      rcases h with h | h
      · exact absurd rfl h
      · cases h
    · rfl

/-- Trying the methods pushes back nothing unless it runs out of input. The induction is on those to
try. -/
theorem extractHttpMethodLoopPushes_eq_nil {c : UInt8} {opts : List (List UInt8 × HttpMethod)}
    {method : HttpMethod} {io : Io} (hm : isSupported method = false)
    (h : isSupported (extractHttpMethodLoop c opts method io).1 = true ∨
      (extractHttpMethodLoop c opts method io).2.isBufferEmpty = false) :
    extractHttpMethodLoopPushes c opts io = [] := by
  induction opts generalizing io with
  | nil => rfl
  | cons o opts ih =>
    unfold extractHttpMethodLoop at h
    unfold extractHttpMethodLoopPushes
    by_cases hc : o.1.headD 0 = c
    · have hnil := @matchFormatPushes_eq_nil o.1.tail [c] io
      simp only [hc, if_true] at h ⊢
      generalize matchFormat o.1.tail [c] io = r at h hnil ⊢
      split
      · next hok => exact hnil (.inl hok)
      · next hok =>
        rw [if_neg hok] at h
        split
        · next he =>
          rw [if_pos he, hm, he] at h
          rcases h with h | h <;> cases h
        · next he =>
          rw [if_neg he] at h
          rw [hnil (.inr (Bool.eq_false_iff.mpr he)), ih h]
          rfl
    · simp only [hc, if_false] at h ⊢
      exact ih h

/-- A port that is read whole pushes back nothing. -/
theorem readPort_flag {c : UInt8} {s : ReqState}
    (h : (readPort c s).1 = true ∨ (readPort c s).2.io.isBufferEmpty = false) :
    (if c = 0x3a then getNumberPushes (lit ":") (readAndWrite s.io).2 else []) = [] := by
  unfold readPort at h
  split
  · next hc =>
    rw [if_pos hc] at h
    refine getNumberPushes_eq_nil ?_
    generalize getNumber (lit ":") (readAndWrite s.io).2 = r at h ⊢
    obtain ⟨port, io⟩ := r
    cases port with
    | none => exact .inr (h.resolve_left Bool.false_ne_true)
    | some port => exact .inl (Option.some_ne_none port)
  · rfl

/-- A host that is read whole pushes back nothing. -/
theorem readHostPushes_eq_nil {userinfo : Bool} {s : ReqState} (h : (readHost userinfo s).1 ≠ none) :
    readHostPushes userinfo s = [] := by
  unfold readHost at h
  unfold readHostPushes
  simp only at h ⊢
  split
  · next hc =>
    rw [if_pos hc] at h
    exact absurd rfl h
  · next hc =>
    refine readPort_flag (s := s.withHost _) ?_
    rw [not_or, not_and_or] at hc
    exact hc.2.imp eq_true_of_ne_false eq_false_of_ne_true

/-- `extractHttpMethod` pushes back nothing unless it runs out of input. -/
theorem extractHttpMethodPushes_eq_nil {s : ReqState} (hm : isSupported s.rData.method = false)
    (h : ¬RanOut (extractHttpMethod s)) : extractHttpMethodPushes s = [] := by
  unfold extractHttpMethod RanOut at h
  unfold extractHttpMethodPushes
  simp only at h ⊢
  split
  · rfl
  · next hc =>
    rw [if_neg hc, not_and_or] at h
    exact extractHttpMethodLoopPushes_eq_nil hm
      (h.imp eq_true_of_ne_false eq_false_of_ne_true)

/-- `checkUriForHost` pushes back nothing unless it runs out of input. -/
theorem checkUriForHostPushes_eq_nil {s : ReqState} (h : ¬RanOut (checkUriForHost s)) :
    checkUriForHostPushes s = [] := by
  refine readHostPushes_eq_nil fun hnone => h ?_
  have hempty := readHost_none hnone
  unfold checkUriForHost
  generalize readHost true s = r at hnone hempty ⊢
  obtain ⟨r, s'⟩ := r
  obtain rfl : r = none := hnone
  exact ⟨rfl, hempty⟩

/-- `extractHost` pushes back nothing unless it runs out of input. -/
theorem extractHostPushes_eq_nil {s : ReqState} (h : ¬RanOut (extractHost s)) :
    extractHostPushes s = [] := by
  refine readHostPushes_eq_nil fun hnone => h ?_
  have hempty := readHost_none hnone
  unfold extractHost
  generalize readHost false s = r at hnone hempty ⊢
  obtain ⟨r, s'⟩ := r
  obtain rfl : r = none := hnone
  exact ⟨rfl, hempty⟩

/-- `checkUri` pushes back nothing unless it runs out of input. -/
theorem checkUriPushes_eq_nil {s : ReqState} (h : ¬RanOut (checkUri s)) : checkUriPushes s = [] := by
  have hhttp := @matchFormatPushes_eq_nil (lit "HTTP") [] s.io
  unfold checkUri at h
  unfold checkUriPushes
  generalize matchFormat (lit "HTTP") [] s.io = r at h hhttp ⊢
  obtain ⟨http, io⟩ := r
  cases http with
  | false =>
    simp only [Bool.false_eq_true, if_false] at h ⊢
    refine hhttp (.inr (eq_false_of_ne_true fun he => h ?_))
    rw [if_pos he]
    exact ⟨rfl, he⟩
  | true =>
    simp only [if_true] at h ⊢
    rw [hhttp (.inl rfl), List.nil_append]
    have hsep := @matchFormatPushes_eq_nil (lit "://") (lit "HTTP") io
    generalize matchFormat (lit "://") (lit "HTTP") io = r at h hsep ⊢
    obtain ⟨sep, io'⟩ := r
    cases sep with
    | false =>
      simp only [Bool.false_eq_true, if_false] at h ⊢
      refine hsep (.inr (eq_false_of_ne_true fun he => h ?_))
      rw [if_pos he]
      exact ⟨rfl, he⟩
    | true =>
      simp only [if_true] at h ⊢
      rw [hsep (.inl rfl), List.nil_append]
      refine checkUriForHostPushes_eq_nil fun hran => h ?_
      generalize checkUriForHost _ = r at hran ⊢
      obtain ⟨ok, s'⟩ := r
      obtain ⟨rfl, he⟩ : ok = false ∧ s'.io.isBufferEmpty = true := hran
      simp only [Bool.false_eq_true, if_false, he, if_true]
      exact ⟨rfl, he⟩

/-- `extractHttpVersion` pushes back nothing unless it runs out of input. -/
theorem extractHttpVersionPushes_eq_nil {s : ReqState} (h : ¬RanOut (extractHttpVersion s)) :
    extractHttpVersionPushes s = [] := by
  have hmatch := @matchFormatPushes_eq_nil (lit "HTTP/1.") [] s.io
  unfold extractHttpVersion at h
  unfold extractHttpVersionPushes
  generalize matchFormat (lit "HTTP/1.") [] s.io = r at h hmatch ⊢
  obtain ⟨ok, io⟩ := r
  cases ok with
  | false =>
    simp only [Bool.false_eq_true, if_false] at h ⊢
    refine hmatch (.inr (eq_false_of_ne_true fun he => h ?_))
    rw [if_pos he]
    exact ⟨rfl, he⟩
  | true =>
    simp only [if_true] at h ⊢
    rw [hmatch (.inl rfl)]
    generalize readAndWrite io = r at h ⊢
    split
    · rfl
    · next hc =>
      rw [if_neg hc] at h
      exact absurd ⟨rfl, rfl⟩ h

theorem checkStartLineEndPushes_eq_nil {s : ReqState} (h : ¬RanOut (checkStartLineEnd s)) :
    checkStartLineEndPushes s = [] :=
  matchFormatPushes_eq_nil ((not_and_or.mp h).imp eq_true_of_ne_false eq_false_of_ne_true)

theorem checkLocalHostPushes_eq_nil {s : ReqState} (h : ¬RanOut (checkLocalHost s)) :
    checkLocalHostPushes s = [] := by
  unfold checkLocalHost at h
  unfold checkLocalHostPushes
  simp only at h ⊢
  split
  · rfl
  · next hc =>
    rw [if_neg hc] at h
    split
    · rfl
    · next hx =>
      rw [if_neg hx] at h
      have hmatch := @matchFormatPushes_eq_nil (lit "X-LOCALHOST:") [] s.io
      generalize matchFormat (lit "X-LOCALHOST:") [] s.io = r at h hmatch
      obtain ⟨ok, io⟩ := r
      cases ok with
      | true => exact hmatch (.inl rfl)
      | false =>
        refine hmatch (.inr (eq_false_of_ne_true fun he => h ?_))
        simp only [Bool.false_eq_true, if_false]
        rw [if_pos he]
        exact ⟨rfl, he⟩

/-- The end of the headers pushes back nothing unless it runs out of input. -/
theorem checkHeadersEndPushes_eq_nil {io : Io}
    (h : (checkHeadersEnd io).1 = true ∨ (checkHeadersEnd io).2.isBufferEmpty = false) :
    checkHeadersEndPushes io = [] := by
  have hlf := @matchFormatPushes_eq_nil [LF] [CR] io
  unfold checkHeadersEnd checkLF checkCRLF at h
  unfold checkHeadersEndPushes checkLF
  generalize matchFormat [LF] [CR] io = r at h hlf ⊢
  obtain ⟨lf, io'⟩ := r
  cases lf with
  | false => exact hlf h
  | true =>
    simp only [if_true] at h ⊢
    rw [hlf (.inl rfl), List.nil_append]
    exact matchFormatPushes_eq_nil h

/-- The loop over the headers pushes back nothing unless it runs out of input. The induction is on the
fuel. -/
theorem checkHostHeaderLoopPushes_eq_nil {fuel : Nat} {io : Io}
    (h : (checkHostHeaderLoop fuel io).1 ≠ .bufferEmpty) : checkHostHeaderLoopPushes fuel io = [] := by
  induction fuel generalizing io with
  | zero => rfl
  | succ fuel ih =>
    unfold checkHostHeaderLoop at h
    unfold checkHostHeaderLoopPushes
    generalize readAndWrite io = r at h ⊢
    obtain ⟨c, io⟩ := r
    simp only at h ⊢
    split
    · rfl
    · next hc =>
      rw [if_neg hc] at h
      split
      · next hH =>
        rw [if_pos hH] at h
        have hmatch := @matchFormatPushes_eq_nil (lit "OST:") (lit "H") io
        generalize matchFormat (lit "OST:") (lit "H") io = r at h hmatch ⊢
        split
        · next hok => exact hmatch (.inl hok)
        · next hok =>
          rw [if_neg hok] at h
          split
          · next he =>
            rw [if_pos he] at h
            exact absurd rfl h
          · next he =>
            rw [if_neg he] at h
            rw [hmatch (.inr (eq_false_of_ne_true he)), ih h]
            rfl
      · next hH =>
        rw [if_neg hH] at h
        split
        · next hCR =>
          rw [if_pos hCR] at h
          have hends := @checkHeadersEndPushes_eq_nil io
          generalize checkHeadersEnd io = r at h hends ⊢
          split
          · next hok => exact hends (.inl hok)
          · next hok =>
            rw [if_neg hok] at h
            split
            · next he =>
              rw [if_pos he] at h
              exact absurd rfl h
            · next he =>
              rw [if_neg he] at h
              rw [hends (.inr (eq_false_of_ne_true he)), ih h]
              rfl
        · next hCR =>
          rw [if_neg hCR] at h
          exact ih h

/-- `checkHostHeader` pushes back nothing unless it runs out of input. -/
theorem checkHostHeaderPushes_eq_nil {s : ReqState} (h : ¬RanOut (checkHostHeader s)) :
    checkHostHeaderPushes s = [] := by
  refine checkHostHeaderLoopPushes_eq_nil fun hend => h ?_
  unfold checkHostHeader
  generalize checkHostHeaderLoop _ _ = r at hend ⊢
  obtain ⟨fin, io⟩ := r
  obtain rfl : fin = .bufferEmpty := hend
  exact ⟨rfl, rfl⟩

/-- A function that ran out of input ends the loop. -/
theorem checkCase_ranOut {r : Bool × ReqState} {next : ReqState → ReqState}
    (h : (checkCase r next).1 = {}) : ¬RanOut r := fun hr => by
  unfold checkCase at h
  rw [if_pos hr.1] at h
  cases h

/-- Behind a host the loop goes on only when the input did not run out. -/
theorem hostCase_ranOut {r : Bool × ReqState} {otherwise : ReqState → ReqState}
    (h : (hostCase r otherwise).1 = {}) : ¬RanOut r := fun hr => by
  unfold hostCase at h
  rw [if_pos ⟨hr.1, .inr hr.2⟩] at h
  cases h

/-- Behind the first header the loop goes on only when the input did not run out. -/
theorem localHostCase_ranOut {r : Bool × ReqState} (h : (localHostCase r).1 = {}) : ¬RanOut r :=
  fun hr => by
    unfold localHostCase at h
    rw [if_neg (Bool.eq_false_iff.mp hr.1), if_pos hr.2] at h
    cases h

/-- An iteration after which the loop goes on pushes nothing back. -/
theorem iterationPushes_eq_nil {s : ReqState} (hw : s.rData.Wf) (h : (iteration s).1 = {}) :
    iterationPushes s = [] := by
  unfold iteration at h
  unfold iterationPushes
  cases hp : s.rData.parserState <;> simp only [hp] at h ⊢
  case METHOD => exact extractHttpMethodPushes_eq_nil (hw.method hp) (checkCase_ranOut h)
  case URI => exact checkUriPushes_eq_nil (hostCase_ranOut h)
  case URI_HOST => exact checkUriForHostPushes_eq_nil (hostCase_ranOut h)
  case VERSION => exact extractHttpVersionPushes_eq_nil (checkCase_ranOut h)
  case START_LINE_END => exact checkStartLineEndPushes_eq_nil (checkCase_ranOut h)
  case LOCALHOST_HEADER_CHECK => exact checkLocalHostPushes_eq_nil (localHostCase_ranOut h)
  case HEADERS => exact checkHostHeaderPushes_eq_nil (checkCase_ranOut h)
  case HOST => exact extractHostPushes_eq_nil (hostCase_ranOut h)

/-! ## Keywords fit -/

/-- What the parser reads from: the reserved zone is that of a client's buffer, and no byte is
zero. -/
structure Buffer.Readable (b : Buffer) : Prop where
  wf : b.Wf
  nonzero : 0 ∉ b.bytes
  reserved : b.infLimit = RESERVED

namespace Buffer.Readable

variable {b : Buffer} {io : Io}

/-- Reading leaves the buffer readable. -/
theorem bufferRead (h : b.Readable) : (HttpProxy.bufferRead b).2.Readable := by
  refine ⟨?_, ?_, (infLimit_read b).trans h.reserved⟩
  · cases hcells : b.cells with
    | nil =>
      rw [read_nil hcells]
      exact h.wf
    | cons x l => exact wf_read h.wf hcells
  · rw [Buffer.bytes_read]
    exact fun h0 => h.nonzero (List.mem_of_mem_tail h0)

theorem readAndWrite (h : io.b.Readable) : (HttpProxy.readAndWrite io).2.b.Readable := h.bufferRead

/-- In a readable buffer only the end is seen as a zero. -/
theorem bytes_eq_nil (h : b.Readable) (hpeek : bufferPeek b = 0) : b.bytes = [] := by
  cases hb : b.bytes with
  | nil => rfl
  | cons c l =>
    rw [bufferPeek, hb, List.headD_cons] at hpeek
    exact absurd (hb ▸ hpeek ▸ List.mem_cons_self) h.nonzero

/-- With nothing to read the whole reserved zone is free. -/
theorem read_eq (h : b.Readable) (hpeek : bufferPeek b = 0) : b.read = RESERVED :=
  (h.wf.read_of_nil (h.bytes_eq_nil hpeek)).trans h.reserved

/-- Comparing with a format leaves the buffer readable. -/
theorem matchFormatLoop (h : io.b.Readable) (format : List UInt8) (i : Nat) (c : UInt8) :
    (HttpProxy.matchFormatLoop true format i c io).2.2.2.b.Readable := by
  induction format generalizing i c io with
  | nil => exact h
  | cons f format ih =>
    unfold HttpProxy.matchFormatLoop
    simp only
    split
    · exact h
    · exact ih h.readAndWrite _ _

/-- A format of which something is missing at the end of the input. -/
theorem read_matchFormatLoop (h : io.b.Readable) {format : List UInt8} {i : Nat} {c : UInt8}
    (hrest : (HttpProxy.matchFormatLoop true format i c io).1 ≠ [])
    (hc : (HttpProxy.matchFormatLoop true format i c io).2.2.1 = 0) :
    (HttpProxy.matchFormatLoop true format i c io).2.2.2.b.read = RESERVED := by
  induction format generalizing i c io with
  | nil => exact absurd rfl hrest
  | cons f format ih =>
    unfold HttpProxy.matchFormatLoop at hrest hc ⊢
    simp only at hrest hc ⊢
    split
    · next hne =>
      rw [if_pos hne] at hc
      exact h.read_eq (toupper_eq_zero.mp hc)
    · next hne =>
      rw [if_neg hne] at hrest hc
      exact ih h.readAndWrite hrest hc

/-- A format that did not run out leaves the buffer readable. -/
theorem matchFormat (h : io.b.Readable) (format pre : List UInt8)
    (hok : (HttpProxy.matchFormat format pre io).1 = true ∨
      (HttpProxy.matchFormat format pre io).2.isBufferEmpty = false) :
    (HttpProxy.matchFormat format pre io).2.b.Readable := by
  have hloop := h.matchFormatLoop format 0 0
  unfold HttpProxy.matchFormat matchFormatWith at hok ⊢
  generalize HttpProxy.matchFormatLoop true format 0 0 io = r at hok hloop ⊢
  simp only at hok ⊢
  split
  · next hc =>
    rw [if_pos hc] at hok
    rcases hok with hok | hok <;> cases hok
  · exact hloop

end Buffer.Readable

theorem bufferRead_fst (b : Buffer) : (bufferRead b).1 = bufferPeek b := by
  cases h : b.cells with
  | nil => rw [Buffer.read_nil h, Buffer.peek_nil h]
  | cons x l => rw [Buffer.read_fst_cons h, Buffer.peek_cons h]

section Stores

variable {io : Io}

/-- What `matchFormat` pushes back is stored when the whole word fits in the reserved zone. -/
theorem matchFormatPushes_store (h : io.b.Readable) (format pre : List UInt8)
    (hlen : pre.length + format.length ≤ RESERVED) :
    ∀ x ∈ matchFormatPushes format pre io, x.Stores := by
  have hread := @Buffer.Readable.read_matchFormatLoop io h format 0 0
  unfold matchFormatPushes
  generalize matchFormatLoop true format 0 0 io = r at hread ⊢
  simp only
  split
  · next hc =>
    have htakes := (@Buffer.Takes.nil r.2.2.2.b).push (format.take r.2.1) |>.push pre
    rw [List.append_nil] at htakes
    refine htakes.storesAll_iff.mpr ?_
    rw [hread hc.1 hc.2, List.length_append, List.length_take]
    omega
  · exact fun x hx => absurd hx List.not_mem_nil

/-- What a method pushes back is stored when the longest one fits. -/
theorem extractHttpMethodLoopPushes_store {c : UInt8} {opts : List (List UInt8 × HttpMethod)}
    (hopts : ∀ o ∈ opts, 1 + o.1.tail.length ≤ RESERVED) (h : io.b.Readable) :
    ∀ x ∈ extractHttpMethodLoopPushes c opts io, x.Stores := by
  induction opts generalizing io with
  | nil => exact fun x hx => absurd hx List.not_mem_nil
  | cons o opts ih =>
    have hrest := fun o ho => hopts o (List.mem_cons_of_mem _ ho)
    unfold extractHttpMethodLoopPushes
    simp only
    split
    · have hstore := matchFormatPushes_store h _ [c] (hopts o List.mem_cons_self)
      have hmatch := h.matchFormat o.1.tail [c]
      split
      · exact hstore
      · split
        · exact hstore
        · next he =>
          exact List.forall_mem_append.mpr ⟨hstore, ih hrest (hmatch (.inr (eq_false_of_ne_true he)))⟩
    · exact ih hrest h

/-- Every method fits in the reserved zone. -/
theorem methodOption_length : ∀ o ∈ methodOption, 1 + o.1.tail.length ≤ RESERVED := by decide

/-- What the end of the headers pushes back is stored. -/
theorem checkHeadersEndPushes_store (h : io.b.Readable) :
    ∀ x ∈ checkHeadersEndPushes io, x.Stores := by
  have hstore := matchFormatPushes_store h [LF] [CR] (by decide)
  have hmatch := h.matchFormat [LF] [CR]
  unfold checkHeadersEndPushes checkLF
  generalize matchFormat [LF] [CR] io = r at hmatch ⊢
  obtain ⟨lf, io'⟩ := r
  cases lf with
  | false => exact hstore
  | true =>
    simp only [if_true]
    exact List.forall_mem_append.mpr
      ⟨hstore, matchFormatPushes_store (hmatch (.inl rfl)) _ _ (by decide)⟩

/-- Behind the end of the headers the buffer is readable. -/
theorem checkHeadersEnd_readable (h : io.b.Readable) (he : (checkHeadersEnd io).2.isBufferEmpty = false) :
    (checkHeadersEnd io).2.b.Readable := by
  have hmatch := h.matchFormat [LF] [CR]
  unfold checkHeadersEnd checkLF checkCRLF at he ⊢
  generalize matchFormat [LF] [CR] io = r at he hmatch ⊢
  obtain ⟨lf, io'⟩ := r
  cases lf with
  | false => exact hmatch (.inr he)
  | true => exact (hmatch (.inl rfl)).matchFormat _ _ (.inr he)

/-- What the loop over the headers pushes back is stored. The induction is on the fuel. -/
theorem checkHostHeaderLoopPushes_store (fuel : Nat) (h : io.b.Readable) :
    ∀ x ∈ checkHostHeaderLoopPushes fuel io, x.Stores := by
  induction fuel generalizing io with
  | zero => exact fun x hx => absurd hx List.not_mem_nil
  | succ fuel ih =>
    have hread := h.readAndWrite
    unfold checkHostHeaderLoopPushes
    generalize readAndWrite io = r at hread ⊢
    obtain ⟨c, io⟩ := r
    simp only
    split
    · exact fun x hx => absurd hx List.not_mem_nil
    · split
      · have hstore := matchFormatPushes_store hread (lit "OST:") (lit "H") (by decide)
        have hmatch := hread.matchFormat (lit "OST:") (lit "H")
        split
        · exact hstore
        · split
          · exact hstore
          · next he =>
            exact List.forall_mem_append.mpr ⟨hstore, ih (hmatch (.inr (eq_false_of_ne_true he)))⟩
      · split
        · have hstore := checkHeadersEndPushes_store hread
          split
          · exact hstore
          · split
            · exact hstore
            · next he =>
              have hends := checkHeadersEnd_readable hread (eq_false_of_ne_true he)
              exact List.forall_mem_append.mpr ⟨hstore, ih hends⟩
        · exact ih hread

variable {s : ReqState}

/-- What `extractHttpMethod` pushes back is stored. -/
theorem extractHttpMethodPushes_store (h : s.io.b.Readable) :
    ∀ x ∈ extractHttpMethodPushes s, x.Stores := by
  unfold extractHttpMethodPushes
  simp only
  split
  · exact fun x hx => absurd hx List.not_mem_nil
  · exact extractHttpMethodLoopPushes_store methodOption_length h.readAndWrite

/-- What `extractHttpVersion` pushes back is stored. -/
theorem extractHttpVersionPushes_store (h : s.io.b.Readable) :
    ∀ x ∈ extractHttpVersionPushes s, x.Stores := by
  have hstore := matchFormatPushes_store h (lit "HTTP/1.") [] (by decide)
  have hmatch := h.matchFormat (lit "HTTP/1.") []
  unfold extractHttpVersionPushes
  generalize matchFormat (lit "HTTP/1.") [] s.io = r at hmatch ⊢
  obtain ⟨ok, io⟩ := r
  cases ok with
  | false => exact hstore
  | true =>
    have hio := hmatch (.inl rfl)
    simp only [if_true]
    split
    · exact hstore
    · next hc =>
      refine List.forall_mem_append.mpr ⟨hstore, List.forall_mem_singleton.mpr ?_⟩
      have hpeek : bufferPeek io.b = 0 := (bufferRead_fst io.b).symm.trans (not_not.mp hc)
      have hcells := Buffer.cells_eq_nil.mpr (hio.bytes_eq_nil hpeek)
      rw [PushBack.Stores, Buffer.storesAll_iff, readAndWrite, Buffer.read_nil hcells,
        hio.read_eq hpeek]
      change (lit "HTTP/1.").length ≤ RESERVED
      decide

/-- What `checkLocalHost` pushes back is stored. -/
theorem checkLocalHostPushes_store (h : s.io.b.Readable) :
    ∀ x ∈ checkLocalHostPushes s, x.Stores := by
  unfold checkLocalHostPushes
  simp only
  split
  · exact fun x hx => absurd hx List.not_mem_nil
  · split
    · exact fun x hx => absurd hx List.not_mem_nil
    · exact matchFormatPushes_store h _ _ (by decide)

end Stores

/-! ## A host and its port -/

/-- The machine is inside a port, and the host, a `:` and the digits are more than the reserved zone
holds. -/
def ReqMachine.PortTooLong (q : ReqMachine) : Prop :=
  match q.ctl with
  | .port _ i n => RESERVED < i + 1 + (digitsOf .dec (n.getD 0)).length
  | _ => False

instance ReqMachine.decidablePortTooLong (q : ReqMachine) : Decidable q.PortTooLong := by
  unfold PortTooLong
  split <;> infer_instance

/-- A part of the run leaves the buffer readable. -/
theorem Buffer.Readable.of_advance {q q' : ReqMachine} {io io' : Io} {l l' : List Cell}
    (h : io.b.Readable) (hz : ∀ x ∈ l, x.1 ≠ 0) (adv : Advance reqMachine id q io l q' io' l') :
    io'.b.Readable := by
  refine ⟨adv.shows_.wf, fun h0 => ?_, adv.keeps.infLimit.trans h.reserved⟩
  rw [← map_fst_cells, adv.shows_.cells] at h0
  obtain ⟨x, hx, hx0⟩ := List.mem_map.mp h0
  exact hz x (adv.suffix.subset hx) hx0

/-- A port that runs out of input leaves the machine in its digits, and the buffer read up to its
end. -/
theorem numberLoop_port (q : ReqMachine) (place : HostPlace) (i : Nat) {l : List Cell} {n : Option Int}
    {io : Io} (h : io.Shows l) (hr : io.b.Readable) (hz : ∀ x ∈ l, x.1 ≠ 0)
    (hend : bufferPeek (numberLoop .dec true l.length (n.getD 0) io).2.b = 0) :
    (numberLoop .dec true l.length (n.getD 0) io).2.b.read = RESERVED ∧
      ∃ n' : Option Int, n'.getD 0 = (numberLoop .dec true l.length (n.getD 0) io).1 ∧
        reqMachine.stateAfter (q.goto (.port place i n)) l = q.goto (.port place i n') := by
  induction l generalizing n io with
  | nil => exact ⟨hr.read_eq hend, n, rfl, rfl⟩
  | cons x l ih =>
    have hx : x.1 ≠ 0 := hz x List.mem_cons_self
    rw [List.length_cons] at hend ⊢
    unfold numberLoop at hend ⊢
    simp only [h.peek] at hend ⊢
    by_cases hd : Radix.dec.isDigit x.1 = true
    · simp only [hd, if_true] at hend ⊢
      have hstep : reqMachine.step (q.goto (.port place i n)) x =
          (q.goto (.port place i (some (toInt32 (Radix.dec.base * n.getD 0 + Radix.dec.value x.1)))),
            echoed true x) := (step_port q place i n x).trans (if_pos hd)
      obtain ⟨hread, n', hn', hafter⟩ := ih (n := some _) (h.read _ _) hr.readAndWrite
        (fun y hy => hz y (List.mem_cons_of_mem _ hy)) hend
      refine ⟨hread, n', hn', ?_⟩
      rw [Transducer.stateAfter_cons, hstep]
      exact hafter
    · simp only [hd, if_false, h.peek, Bool.false_eq_true] at hend
      exact absurd hend hx

/-- A port that runs out of input, behind a host of `i` characters. -/
theorem getNumberPushes_takes (q : ReqMachine) (place : HostPlace) (i : Nat) {l : List Cell} {io : Io}
    (h : io.Shows l) (hr : io.b.Readable) (hz : ∀ x ∈ l, x.1 ≠ 0) (he : io.isBufferEmpty = false)
    (hran : (getNumber (lit ":") io).1 = none ∧ (getNumber (lit ":") io).2.isBufferEmpty = true) :
    ∃ (b : Buffer) (n : Option Int), b.read = RESERVED ∧
      b.Takes (getNumberPushes (lit ":") io) (lit ":" ++ digitsOf .dec (n.getD 0)) ∧
      (getNumber (lit ":") io).2.b = b.pushBack (lit ":" ++ digitsOf .dec (n.getD 0)) ∧
      reqMachine.stateAfter (q.goto (.port place i none)) l = q.goto (.port place i n) := by
  have hnumber := numberLoop_port q place i (n := none) h hr hz
  unfold getNumber getNumberWith at hran ⊢
  unfold getNumberPushes
  rw [h.length] at hran ⊢
  simp only [Option.getD_none] at hnumber hran ⊢
  split
  · next hd =>
    rw [if_pos hd, he] at hran
    cases hran.2
  · next hd =>
    rw [if_neg hd] at hran
    generalize numberLoop .dec true l.length 0 io = r at hnumber hran ⊢
    split
    · next hend =>
      obtain ⟨hread, n, hn, hafter⟩ := hnumber hend
      have htakes := (@Buffer.Takes.nil r.2.b).push (digitsOf .dec r.1) |>.push (lit ":")
      rw [List.append_nil, ← hn] at htakes
      refine ⟨r.2.b, n, hread, ?_, ?_, hafter⟩
      · rw [← hn]
        exact htakes
      · rw [hn]
        exact writePrefix_eq _ _ _
    · next hend =>
      rw [if_neg hend] at hran
      cases hran.1

/-- What a host and its port push back is stored unless they are too long. -/
theorem readHostPushes_store_iff (place : HostPlace) {s : ReqState} {l : List Cell} (h : s.Reads l)
    (hr : s.io.b.Readable) (hnone : (readHost (decide (place ≠ .header)) s).1 = none) :
    (∀ x ∈ readHostPushes (decide (place ≠ .header)) s, x.Stores) ↔
      ¬(reqMachine.stateAfter (s.machineAt (.host place 0)) l).PortTooLong := by
  have hloop := hostLoop_move place s l (l.length + 1) ⟨0, 0, s.rData.host, s.io⟩
    (Nat.lt_succ_self _) (Nat.zero_lt_succ _) h.shows_ h.nonzero
  have hstart : (s.withHost ⟨0, 0, s.rData.host, s.io⟩).machineAt (.host place 0) =
      s.machineAt (.host place 0) := rfl
  simp only [hstart] at hloop
  unfold readHost at hnone
  unfold readHostPushes
  rw [h.shows_.length] at hnone ⊢
  generalize hostLoop _ _ _ = t at hloop hnone ⊢
  cases hloop with
  | ended lt c empty adv =>
    have hafter : reqMachine.stateAfter (s.machineAt (.host place 0)) l = _ :=
      adv.emits.choose_spec.2.stateAfter_eq
    have hread := (hr.of_advance h.nonzero adv).read_eq adv.shows_.peek_nil
    have hport : readPort 0 (s.withHost t) = (true, s.withHost t) := readPort_of_ne (by decide) _
    rw [hafter]
    simp only [c, hport, show ¬(0 : UInt8) = 0x3a by decide, if_false, true_or, if_true,
      List.nil_append, List.forall_mem_singleton]
    refine iff_of_true ?_ id
    -- The host read so far is shorter than the array, so that the reserved zone takes it.
    rw [PushBack.Stores, Buffer.storesAll_iff, List.length_take]
    change min t.i _ ≤ t.io.b.read
    rw [hread]
    change min t.i _ ≤ 255
    change t.i < 255 at lt
    omega
  | @stopped x l' lt c host userinfo empty adv =>
    have hreads : (s.withHost t).Reads (x :: l') := h.of_advance adv empty
    have hx : x.1 ≠ 0 := hreads.nonzero x List.mem_cons_self
    have h0 : t.c ≠ 0 := by rw [c]; exact fun h0 => hx (tolower_eq_zero.mp h0)
    by_cases hc : t.c = 0x3a
    · have hcolon : Advance reqMachine id ((s.withHost t).machineAt (.host place t.i)) t.io (x :: l')
          (((s.withHost t).machineAt (.host place t.i)).goto (.port place t.i none))
          (readByte true t.io) l' := by
        refine Advance.read true adv.shows_ hx
          (Eq.trans (stepHost_of_colon place t.i (c.symm.trans hc)) ?_)
        rw [List.map_id]
      have hflag : (readByte true t.io).isBufferEmpty = false := by
        rw [readByte_cons true adv.shows_ hx]
        exact hreads.notEmpty
      have hnumber := getNumberPushes_takes ((s.withHost t).machineAt (.host place t.i)) place t.i
        hcolon.shows_ (hr.of_advance h.nonzero (adv.trans hcolon))
        (fun y hy => hreads.nonzero y (List.mem_cons_of_mem _ hy)) hflag
      have hafter : reqMachine.stateAfter (s.machineAt (.host place 0)) l = _ :=
        (adv.trans hcolon).emits.choose_spec.2.stateAfter_eq
      rw [hafter]
      unfold readPort at hnone ⊢
      simp only [hc, if_true, ReqState.io_withHost] at hnone ⊢
      rw [show (readAndWrite t.io).2 = readByte true t.io from rfl] at hnone ⊢
      generalize hget : getNumber (lit ":") (readByte true t.io) = r at hnone hnumber ⊢
      obtain ⟨port, io⟩ := r
      cases port with
      | some v =>
        simp only [show ¬(0x3a : UInt8) = 0 by decide, Bool.true_eq_false, false_and, or_self, if_false,
          reduceCtorEq] at hnone
      | none =>
        by_cases hempty : io.isBufferEmpty = true
        -- The digits go back first, then the colon, then the host.
        · obtain ⟨b, n, hread, htakes, hb, hport⟩ := hnumber ⟨rfl, hempty⟩
          have htakes := htakes.push (t.host.toList.take t.i)
          rw [← hb] at htakes
          simp only [hempty, and_self, or_true, if_true]
          rw [hport]
          refine htakes.storesAll_iff.trans ?_
          have hhost : (t.host.toList.take t.i).length = t.i := by
            rw [List.length_take, Vector.length_toList]
            exact Nat.min_eq_left (Nat.le_of_lt lt)
          rw [hread, List.length_append, List.length_append, hhost]
          change _ ↔ ¬RESERVED < t.i + 1 + _
          rw [show (lit ":").length = 1 from rfl]
          omega
        · simp only [hempty, show ¬(0x3a : UInt8) = 0 by decide, and_false, or_self, if_false,
            reduceCtorEq] at hnone
    · simp only [readPort_of_ne hc, h0, Bool.true_eq_false, false_and, or_self, if_false,
        reduceCtorEq] at hnone
  | full i c empty adv =>
    have hcolon : t.c ≠ 0x3a := by rintro hc; rw [hc] at c; exact absurd c (by decide)
    have h0 : t.c ≠ 0 := by rintro hc; rw [hc] at c; exact absurd c (by decide)
    simp only [readPort_of_ne hcolon, h0, Bool.true_eq_false, false_and, or_self, if_false,
      reduceCtorEq] at hnone

/-! ## Iterations -/

/-- Only the states of a host can be in a port. -/
theorem ReqMachine.not_portTooLong {q : ReqMachine}
    (h : q.ctl.parserState ≠ .URI_HOST ∧ q.ctl.parserState ≠ .HOST) : ¬q.PortTooLong := by
  obtain ⟨ctl, d, calls⟩ := q
  cases ctl with
  | port place i n =>
    cases place with
    | header => exact absurd rfl h.2
    | uri => exact absurd rfl h.1
    | uriHost => exact absurd rfl h.1
  | _ => exact id

/-- An iteration that ends the loop somewhere else than inside a host and its port. -/
theorem iteration_not_portTooLong {s : ReqState} {l : List Cell} (h : s.Reads l) (hw : s.rData.Wf)
    (hend : (iteration s).1 ≠ {})
    (hp : (iteration s).2.io.isBufferEmpty = true →
      (iteration s).2.rData.parserState ≠ .URI_HOST ∧ (iteration s).2.rData.parserState ≠ .HOST) :
    ¬(reqMachine.stateAfter s.machine l).PortTooLong := by
  have hmove := iteration_move h hw
  generalize iteration s = r at hmove hend hp
  cases hmove with
  | goes => exact absurd rfl hend
  | waits rests calls w =>
    rw [w.emits.choose_spec.2.stateAfter_eq, Transducer.stateAfter_nil]
    refine ReqMachine.not_portTooLong ?_
    rw [← rests.parserState]
    exact hp w.isBufferEmpty
  | @stops s' l' why reads parserState rejected adv =>
    rw [adv.emits.choose_spec.2.stateAfter_eq, Transducer.stateAfter, ReqState.stopped, run_halt]
    exact id
  | @finished s' l' reads parserState adv =>
    have hmachine : s'.machine = ⟨.halt .accepted [], s'.rData.toRequestFields, s'.calls⟩ := by
      rw [ReqState.machine, RequestData.startCtl, parserState]
    rw [adv.emits.choose_spec.2.stateAfter_eq, Transducer.stateAfter, hmachine, run_halt]
    exact id

/-- A case that ended the loop leaves what its function did. -/
theorem checkCase_stops {r : Bool × ReqState} {next : ReqState → ReqState}
    (h : (checkCase r next).1 ≠ {}) : (checkCase r next).2 = r.2 := by
  unfold checkCase at h ⊢
  split
  · rfl
  · next hc =>
    rw [if_neg hc] at h
    exact absurd rfl h

/-- The case of a host stops in the state it was in. -/
theorem hostCase_stops {r : Bool × ReqState} {otherwise : ReqState → ReqState}
    (h : (hostCase r otherwise).1 ≠ {}) : r.1 = false ∧ (hostCase r otherwise).2 = r.2 := by
  unfold hostCase at h ⊢
  split
  · next hc => exact ⟨hc.1, rfl⟩
  · next hc =>
    rw [if_neg hc] at h
    split at h <;> exact absurd rfl h

/-- The case of the first header stops in the state it was in. -/
theorem localHostCase_stops {r : Bool × ReqState} (h : (localHostCase r).1 ≠ {}) :
    r.1 = false ∧ (localHostCase r).2 = r.2 := by
  unfold localHostCase at h ⊢
  split
  · next hc =>
    rw [if_pos hc] at h
    exact absurd rfl h
  · next hc =>
    rw [if_neg hc] at h
    split
    · exact ⟨eq_false_of_ne_true hc, rfl⟩
    · next he =>
      rw [if_neg he] at h
      exact absurd rfl h

/-- A host that was read to its end leaves input to read. -/
theorem readHost_notEmpty (place : HostPlace) {s : ReqState} {l : List Cell} (h : s.Reads l)
    (hsome : (readHost (decide (place ≠ .header)) s).1 ≠ none) :
    (readHost (decide (place ≠ .header)) s).2.io.isBufferEmpty = false := by
  have hmove := readHost_move place h
  generalize readHost _ s = r at hmove hsome ⊢
  cases hmove with
  | waits => exact absurd rfl hsome
  | host lt same reads hostChar userinfo colon adv => exact reads.notEmpty
  | port lt same reads more adv => exact reads.notEmpty
  | refused invalid same reads adv => exact reads.notEmpty

section Iteration

variable {s : ReqState} {l : List Cell}

/-- The `URI` case: only the push-backs of a host may be lost. -/
theorem checkUriPushes_store_iff (h : s.Reads l) (hw : s.rData.Wf) (hr : s.io.b.Readable)
    (hp : s.rData.parserState = .URI) (hend : (iteration s).1 ≠ {}) :
    (∀ x ∈ checkUriPushes s, x.Stores) ↔ ¬(reqMachine.stateAfter s.machine l).PortTooLong := by
  have hiter : iteration s = hostCase (checkUri s) (·.gotoSpaces .VERSION) := by
    unfold iteration
    rw [hp]
  have hmachine : s.machine = s.machineAt (.uri 0) := by
    rw [ReqState.machine, RequestData.startCtl, hp]
    rfl
  have hstops := iteration_not_portTooLong h hw hend
  rw [hiter] at hend hstops
  rw [(hostCase_stops hend).2] at hstops
  have hrelative : ∀ s' : ReqState, (checkUriRelative s').2.rData.parserState = .RELATIVE_URI :=
    fun s' => congrArg RequestData.parserState (cleanRelativeUri_rData (s'.goto .RELATIVE_URI))
  have hhttp := matchFormat_req (s.machineAt (.uri 0)) (s.machineAt (.uriSep 0))
    (s.machineAt .relative) (lit "HTTP") [] .uri (by decide) (by decide) (fun i _ x => rfl) h.shows_
  have hstore := matchFormatPushes_store hr (lit "HTTP") [] (by decide)
  -- A format that was not interrupted pushes nothing back.
  have hnil := @matchFormatPushes_eq_nil (lit "HTTP") [] s.io
  rw [hmachine] at hstops ⊢
  -- The three reads of the case in turn: `HTTP`, `://`, and the host behind them.
  unfold checkUri at hstops hend
  unfold checkUriPushes
  obtain ⟨r, hr'⟩ : ∃ r, matchFormat (lit "HTTP") [] s.io = r := ⟨_, rfl⟩
  rw [hr'] at hhttp hstops hend hnil ⊢
  obtain ⟨http, io⟩ := r
  cases http with
  | false =>
    refine iff_of_true hstore (hstops fun he => ?_)
    simp only [Bool.false_eq_true, if_false] at he ⊢
    split
    · change s.rData.parserState ≠ _ ∧ s.rData.parserState ≠ _
      rw [hp]
      decide
    · rw [hrelative]
      decide
  | true =>
    rw [hnil (.inl rfl)]
    have hio := hr.matchFormat (lit "HTTP") [] (.inl (congrArg Prod.fst hr'))
    rw [hr'] at hio
    obtain ⟨l', adv, empty⟩ : ∃ l', Advance reqMachine id (s.machineAt (.uri 0)) s.io l
        (s.machineAt (.uriSep 0)) io l' ∧ io.isBufferEmpty = s.io.isBufferEmpty := by
      cases hhttp with
      | full empty adv => exact ⟨_, adv, empty⟩
      | nul lt meets => exact absurd h.nonzero meets.ne_zero
    have hreads : ({ s with io := io } : ReqState).Reads l' := h.of_advance adv empty
    have hsep := matchFormat_req (s.machineAt (.uri 0)) (s.machineAt (.host .uri 0))
      (s.machineAt .relative) (lit "://") (lit "HTTP") .uriSep (by decide) (by decide)
      (fun i _ x => rfl) hreads.shows_
    have hstore' := matchFormatPushes_store hio (lit "://") (lit "HTTP") (by decide)
    have hnil' := @matchFormatPushes_eq_nil (lit "://") (lit "HTTP") io
    simp only [if_true, List.nil_append] at hstops hend ⊢
    obtain ⟨r, hr''⟩ : ∃ r, matchFormat (lit "://") (lit "HTTP") io = r := ⟨_, rfl⟩
    rw [hr''] at hsep hstops hend hnil' ⊢
    obtain ⟨sep, io'⟩ := r
    cases sep with
    | false =>
      refine iff_of_true hstore' (hstops fun he => ?_)
      simp only [Bool.false_eq_true, if_false] at he ⊢
      split
      · change s.rData.parserState ≠ _ ∧ s.rData.parserState ≠ _
        rw [hp]
        decide
      · rw [hrelative]
        decide
    | true =>
      rw [hnil' (.inl rfl)]
      have hio' := hio.matchFormat (lit "://") (lit "HTTP")
        (.inl (congrArg Prod.fst hr''))
      rw [hr''] at hio'
      obtain ⟨l'', adv', empty'⟩ : ∃ l'', Advance reqMachine id (s.machineAt (.uriSep 0)) io l'
          (s.machineAt (.host .uri 0)) io' l'' ∧ io'.isBufferEmpty = io.isBufferEmpty := by
        cases hsep with
        | full empty adv => exact ⟨_, adv, empty⟩
        | nul lt meets => exact absurd hreads.nonzero meets.ne_zero
      have hreads' : (({ s with io := io' } : ReqState).goto .URI_HOST).Reads l'' :=
        h.of_advance (adv.trans adv') (empty'.trans empty)
      have hafter : reqMachine.stateAfter (s.machineAt (.uri 0)) l =
          reqMachine.stateAfter ((({ s with io := io' } : ReqState).goto .URI_HOST).machineAt
            (.host .uri 0)) l'' := (adv.trans adv').emits.choose_spec.2.stateAfter_eq
      simp only [if_true, List.nil_append] at hstops hend ⊢
      -- Only a host that runs out of input is pushed back.
      by_cases hnone : (readHost true (({ s with io := io' } : ReqState).goto .URI_HOST)).1 = none
      · rw [hafter]
        exact readHostPushes_store_iff .uri hreads' hio' hnone
      · have hempty := readHost_notEmpty .uri hreads' hnone
        rw [checkUriForHostPushes, readHostPushes_eq_nil hnone]
        refine iff_of_true (fun x hx => absurd hx List.not_mem_nil) (hstops fun _ => ?_)
        rw [show decide (HostPlace.uri ≠ .header) = true from rfl] at hempty
        unfold checkUriForHost at hend ⊢
        generalize readHost true (({ s with io := io' } : ReqState).goto .URI_HOST) = r
          at hnone hempty hend ⊢
        obtain ⟨_ | ⟨i, valid⟩, s'⟩ := r
        · exact absurd rfl hnone
        · simp only at hend hempty ⊢
          split
          · next hok =>
            rw [if_pos hok] at hend
            exact absurd rfl hend
          · rw [if_neg (Bool.eq_false_iff.mp hempty), hrelative]
            decide

/-- The `URI_HOST` and the `HOST` case. -/
theorem hostPushes_store_iff (place : HostPlace) (r : Bool × ReqState)
    (otherwise : ReqState → ReqState) (h : s.Reads l) (hw : s.rData.Wf) (hr : s.io.b.Readable)
    (hmachine : s.machine = s.machineAt (.host place 0))
    (hiter : iteration s = hostCase r otherwise)
    (hio : r.2.io.isBufferEmpty = (readHost (decide (place ≠ .header)) s).2.io.isBufferEmpty)
    (hend : (iteration s).1 ≠ {}) :
    (∀ x ∈ readHostPushes (decide (place ≠ .header)) s, x.Stores) ↔
      ¬(reqMachine.stateAfter s.machine l).PortTooLong := by
  by_cases hnone : (readHost (decide (place ≠ .header)) s).1 = none
  · rw [hmachine]
    exact readHostPushes_store_iff place h hr hnone
  · rw [readHostPushes_eq_nil hnone]
    refine iff_of_true (fun x hx => absurd hx List.not_mem_nil)
      (iteration_not_portTooLong h hw hend fun he => ?_)
    rw [hiter] at hend he
    rw [(hostCase_stops hend).2, hio, readHost_notEmpty place h hnone] at he
    cases he

/-- The push-backs of the iteration that ends the loop are stored unless the input ends inside a port
too long. -/
theorem iterationPushes_store_iff (h : s.Reads l) (hw : s.rData.Wf) (hr : s.io.b.Readable)
    (hend : (iteration s).1 ≠ {}) :
    (∀ x ∈ iterationPushes s, x.Stores) ↔ ¬(reqMachine.stateAfter s.machine l).PortTooLong := by
  have hstops := iteration_not_portTooLong h hw hend
  have hother : ∀ {ps : List PushBack} (p : RequestParserState), p ≠ .URI_HOST ∧ p ≠ .HOST →
      (∀ x ∈ ps, x.Stores) → (iteration s).2.rData.parserState = p →
      ((∀ x ∈ ps, x.Stores) ↔ ¬(reqMachine.stateAfter s.machine l).PortTooLong) :=
    fun p hne hstore hp => iff_of_true hstore (hstops fun _ => hp ▸ hne)
  have hnone : ∀ x ∈ ([] : List PushBack), x.Stores := fun x hx => absurd hx List.not_mem_nil
  unfold iterationPushes
  cases hp : s.rData.parserState <;> simp only
  case SPACE_TRANSITION =>
    refine hother .SPACE_TRANSITION (by decide) hnone ?_
    unfold iteration at hend ⊢
    simp only [hp] at hend ⊢
    rw [checkCase_stops hend, checkSpaces_rData, hp]
  case METHOD =>
    refine hother .METHOD (by decide) (extractHttpMethodPushes_store hr) ?_
    unfold iteration at hend ⊢
    simp only [hp] at hend ⊢
    rw [checkCase_stops hend, (extractHttpMethod_stays s).1.parserState, hp]
  case URI => exact checkUriPushes_store_iff h hw hr hp hend
  case URI_HOST =>
    refine hostPushes_store_iff .uriHost (checkUriForHost s) (·.gotoSpaces .VERSION) h hw hr ?_ ?_ ?_ hend
    · rw [ReqState.machine, RequestData.startCtl, hp]
      rfl
    · unfold iteration
      rw [hp]
    · unfold checkUriForHost
      rw [show decide (HostPlace.uriHost ≠ .header) = true from rfl]
      generalize readHost true s = r
      obtain ⟨_ | ⟨i, valid⟩, s'⟩ := r <;> rfl
  case RELATIVE_URI =>
    refine hother .RELATIVE_URI (by decide) hnone ?_
    unfold iteration at hend ⊢
    simp only [hp] at hend ⊢
    rw [checkCase_stops hend, cleanRelativeUri_rData, hp]
  case VERSION =>
    refine hother .VERSION (by decide) (extractHttpVersionPushes_store hr) ?_
    unfold iteration at hend ⊢
    simp only [hp] at hend ⊢
    rw [checkCase_stops hend, (extractHttpVersion_stays s).parserState, hp]
  case START_LINE_END =>
    refine hother .START_LINE_END (by decide)
      (matchFormatPushes_store hr [CR, LF] [] (by decide)) ?_
    unfold iteration at hend ⊢
    simp only [hp] at hend ⊢
    rw [checkCase_stops hend]
    exact hp
  case LOCALHOST_HEADER_CHECK =>
    refine hother .LOCALHOST_HEADER_CHECK (by decide) (checkLocalHostPushes_store hr) ?_
    unfold iteration at hend ⊢
    simp only [hp] at hend ⊢
    obtain ⟨hfalse, hstop⟩ := localHostCase_stops hend
    rw [hstop, checkLocalHost_rData hfalse, hp]
  case HEADERS =>
    refine hother .HEADERS (by decide) (checkHostHeaderLoopPushes_store _ hr) ?_
    unfold iteration at hend ⊢
    simp only [hp] at hend ⊢
    rw [checkCase_stops hend, checkHostHeader_rData, hp]
  case HOST =>
    refine hostPushes_store_iff .header (extractHost s) id h hw hr ?_ ?_
      ?_ hend
    · rw [ReqState.machine, RequestData.startCtl, hp]
      rfl
    · unfold iteration
      rw [hp]
    · rw [(extractHost_eq s).1]
      rfl
  case FINISHED =>
    refine hother .FINISHED (by decide) hnone ?_
    rw [iteration_finished hp]
    exact hp

end Iteration

/-! ## Calls -/

/-- The push-backs of a call are stored exactly when its run does not end inside a port that is too
long. -/
theorem requestLoopPushes_store_iff {fuel : Nat} {s : ReqState} {r : Bool × ReqState}
    (hloop : requestLoop fuel s = some r) {l : List Cell} (h : s.Reads l) (hw : s.rData.Wf)
    (hr : s.io.b.Readable) :
    (∀ x ∈ requestLoopPushes fuel s, x.Stores) ↔
      ¬(reqMachine.stateAfter s.machine l).PortTooLong := by
  induction fuel generalizing s l with
  | zero => cases hloop
  | succ fuel ih =>
    have hmove := iteration_move h hw
    have hwf := iteration_wf hw
    have hstop := iterationPushes_store_iff h hw hr
    have hgo := iterationPushes_eq_nil hw
    unfold requestLoopPushes
    unfold requestLoop at hloop
    cases hbody : loopBody s with
    | inl s' =>
      obtain ⟨hflags, rfl⟩ := loopBody_eq_inl.mp hbody
      rw [Loop.run_succ_of_goes hbody] at hloop
      rw [hgo hflags, List.nil_append]
      generalize iteration s = i at hmove hflags hwf hloop ⊢
      cases hmove with
      | goes s' reads adv =>
        rw [adv.emits.choose_spec.2.stateAfter_eq]
        exact ih hloop reads hwf (hr.of_advance h.nonzero adv)
      | waits => cases hflags
      | stops => cases hflags
      | finished => cases hflags
    | inr r =>
      rw [List.append_nil]
      refine hstop fun hflags => ?_
      rw [loopBody_eq_inl.mpr ⟨hflags, rfl⟩] at hbody
      cases hbody

/-- A call that does not return pushes back nothing: no iteration of it runs out of input. -/
theorem requestLoopPushes_of_none {fuel : Nat} {s : ReqState} (hloop : requestLoop fuel s = none)
    (hw : s.rData.Wf) : requestLoopPushes fuel s = [] := by
  induction fuel generalizing s with
  | zero => rfl
  | succ fuel ih =>
    have hwf := iteration_wf hw
    unfold requestLoop at hloop
    unfold requestLoopPushes
    cases hbody : loopBody s with
    | inl s' =>
      obtain ⟨hflags, rfl⟩ := loopBody_eq_inl.mp hbody
      rw [Loop.run_succ_of_goes hbody] at hloop
      rw [iterationPushes_eq_nil hw hflags]
      exact ih hloop hwf
    | inr r =>
      rw [Loop.run_succ_of_ends hbody] at hloop
      cases hloop

variable {rd : RequestData} {bIn bOut : Buffer} {r : RequestResult}

/-- A readable buffer holds no zero byte. -/
theorem Buffer.Readable.cells_ne_zero {b : Buffer} (h : b.Readable) : ∀ x ∈ b.cells, x.1 ≠ 0 := by
  intro x hx h0
  refine h.nonzero ?_
  rw [← map_fst_cells, ← h0]
  exact List.mem_map_of_mem hx

/-- The push-backs of a call are stored unless its input ends inside a port too long. -/
theorem checkRequestPushes_store_iff (hw : rd.Wf) (hr : bIn.Readable) :
    (∀ x ∈ checkRequestPushes rd bIn, x.Stores) ↔
      ¬(reqMachine.stateAfter (callStart rd bIn).machine bIn.cells).PortTooLong := by
  have hreads : (callStart rd bIn).Reads bIn.cells := ⟨⟨hr.wf, rfl⟩, hr.cells_ne_zero, rfl⟩
  have hwf := (running_callStart hw bIn).1
  unfold checkRequestPushes
  cases hloop : requestLoop (requestFuel bIn) (callStart rd bIn) with
  | some r => exact requestLoopPushes_store_iff hloop hreads hwf hr
  | none =>
    have hmove := checkRequest_move bIn hw hr.wf rfl hr.cells_ne_zero
    rw [show checkRequest rd bIn bIn = ((requestLoop (requestFuel bIn) (callStart rd bIn)).map
      reportError).map _ from rfl, hloop] at hmove
    rw [requestLoopPushes_of_none hloop hwf]
    refine iff_of_true (fun x hx => absurd hx List.not_mem_nil) ?_
    cases hmove with
    | spins after =>
      unfold ReqMachine.PortTooLong
      rw [after]
      exact id

/-- A call of a parser that rejected nothing yet starts in a state of the machine's invariant. -/
theorem inv_callStart (hs : rd.state = .OK) (b : Buffer) : (callStart rd b).machine.Inv := by
  have hlive : (callStart rd b).machine.Live := ⟨HttpVersion.noConfusion, hs, rfl⟩
  have hzero := ReqMachine.hostPrefix_zero (callStart rd b).rData.toRequestFields
  obtain ⟨fields, p, next⟩ := rd
  cases p with
  | FINISHED => exact hs
  | URI_HOST => exact ⟨hlive, hzero⟩
  | HOST => exact ⟨hlive, hzero⟩
  | URI => exact ⟨hlive, Nat.zero_lt_succ _⟩
  | VERSION => exact ⟨hlive, Nat.zero_lt_succ _⟩
  | START_LINE_END => exact ⟨hlive, Nat.zero_lt_succ _⟩
  | SPACE_TRANSITION => exact ⟨hlive, trivial⟩
  | METHOD => exact ⟨hlive, trivial⟩
  | RELATIVE_URI => exact ⟨hlive, trivial⟩
  | LOCALHOST_HEADER_CHECK => exact ⟨hlive, trivial⟩
  | HEADERS => exact ⟨hlive, trivial⟩

/-- What a call leaves to read. -/
theorem checkRequest_readable (hw : rd.Wf) (hs : rd.state = .OK) (hr : bIn.Readable)
    (h : checkRequest rd bIn bOut = some r) : r.bIn.Readable := by
  have hreads : (callStart rd bIn).Reads bIn.cells := ⟨⟨hr.wf, rfl⟩, hr.cells_ne_zero, rfl⟩
  obtain ⟨r', hloop, rfl⟩ := checkRequest_eq_some_iff.mp h
  have hmove := requestLoop_move hloop hreads (running_callStart hw bIn).1
  cases hmove with
  | @halts l' why spin parserState state adv => exact hr.of_advance hreads.nonzero adv
  | @waits q' rests calls w =>
    refine ⟨w.shows_.wf, fun h0 => ?_, w.keeps.infLimit.trans hr.reserved⟩
    have hinv := ReqMachine.inv_stateAfter (inv_callStart hs bIn) bIn.cells
    rw [w.emits.choose_spec.2.stateAfter_eq, Transducer.stateAfter_nil] at hinv
    change 0 ∈ (reportError r').2.io.b.bytes at h0
    rw [← Buffer.map_fst_cells, w.shows_.cells, map_fst_pushedBack] at h0
    exact hinv.zero_not_mem_pushBack (List.mem_of_mem_drop h0)

/-! ## Runs -/

namespace Feed

/-- The next read: the bytes are appended and the parser is called. After a rejection there is none,
nor after a call that does not return. -/
def receive (f : Feed) (w : List UInt8) : Option Feed :=
  if f.rData.state = .OK then
    (checkRequest f.rData (bufferWriteAll f.bIn w) f.bOut).map f.after
  else none

/-- Every push-back made in the call after `w` was received stores all of its bytes. -/
def StoresPushes (f : Feed) (w : List UInt8) : Prop :=
  f.rData.state = .OK → ∀ x ∈ checkRequestPushes f.rData (bufferWriteAll f.bIn w), x.Stores

/-- Where the machine is when it has read the input of the call after `w` was received. -/
def reads (f : Feed) (w : List UInt8) : ReqMachine :=
  reqMachine.stateAfter (callStart f.rData (bufferWriteAll f.bIn w)).machine
    (bufferWriteAll f.bIn w).cells

/-- The input of the call after `w` was received does not end inside a port too long. -/
def PortFits (f : Feed) (w : List UInt8) : Prop := f.rData.state = .OK → ¬(f.reads w).PortTooLong

instance decidableStoresPushes (f : Feed) (w : List UInt8) : Decidable (f.StoresPushes w) :=
  inferInstanceAs (Decidable (_ → _))

instance decidablePortFits (f : Feed) (w : List UInt8) : Decidable (f.PortFits w) :=
  inferInstanceAs (Decidable (_ → _))

/-- Between two reads of a connection; the buffer may be smaller than its reserved zone, and then
it takes in nothing. -/
inductive Open (n : Nat) (f : Feed) : Prop
  | readable (wf : f.rData.Wf) (bIn : f.bIn.Readable)
  | small (lt : n < RESERVED) (bIn : f.bIn = bufferInitR RESERVED n)
      (rData : ∃ v, f.rData = { defaultRequestStruct with version := v })

end Feed

/-- Writing bytes that are not zero leaves the buffer readable. -/
theorem Buffer.Readable.writeAll {b : Buffer} (h : b.Readable) {w : List UInt8} (hw : 0 ∉ w) :
    (bufferWriteAll b w).Readable := by
  have hroom : b.write + (w.take (b.limit - b.write)).length ≤ b.limit := by
    have hle := h.wf.write_le
    rw [List.length_take]
    omega
  have htake : bufferWriteAll b w = bufferWriteAll b (w.take (b.limit - b.write)) := by
    rw [writeAll_eq, writeAll_eq, List.take_take, Nat.min_self]
  rw [htake]
  refine ⟨wf_writeAll h.wf hroom, ?_, (infLimit_writeAll _ _).trans h.reserved⟩
  rw [writeAll_of_le hroom, List.mem_append, not_or]
  exact ⟨h.nonzero, fun h0 => hw (List.mem_of_mem_take h0)⟩

/-- A buffer that is all reserved zone takes nothing. -/
theorem writeAll_of_small {n : Nat} (h : n < RESERVED) (w : List UInt8) :
    bufferWriteAll (bufferInitR RESERVED n) w = bufferInitR RESERVED n := by
  have hroom : (bufferInitR RESERVED n).limit - (bufferInitR RESERVED n).write = 0 := by
    simp only [bufferInitR, Buffer.write, List.length_nil, Nat.add_zero]
    omega
  rw [Buffer.writeAll_eq, hroom, List.take_zero, List.append_nil]

/-- Nothing to read, and nothing read before. -/
theorem checkRequest_of_small (v : HttpVersion) (n : Nat) (bOut : Buffer) :
    checkRequest { defaultRequestStruct with version := v } (bufferInitR RESERVED n) bOut =
      some ⟨false, { defaultRequestStruct with version := .v1_1 }, bufferInitR RESERVED n, bOut, true,
        []⟩ := rfl

namespace Feed

variable {n : Nat} {f f' : Feed} {w : List UInt8}

/-- A new connection is open, with an empty buffer. -/
theorem open_start (n : Nat) (bOut : Buffer) : (Feed.start (bufferInitR RESERVED n) bOut).Open n := by
  by_cases h : n < RESERVED
  · exact .small h rfl ⟨.undefined, rfl⟩
  · exact .readable .default ⟨Buffer.wf_initR (Nat.le_of_not_lt h), List.not_mem_nil, rfl⟩

/-- A read of bytes that are not zero leaves the connection open. -/
theorem open_receive (h : f.Open n) (hw : 0 ∉ w) (hstep : f.receive w = some f') : f'.Open n := by
  unfold receive at hstep
  split at hstep
  · next hs =>
    obtain ⟨r, hr, rfl⟩ := Option.map_eq_some_iff.mp hstep
    cases h with
    | readable wf bIn =>
      exact .readable (checkRequest_wf wf hr) (checkRequest_readable wf hs (bIn.writeAll hw) hr)
    | small lt bIn rData =>
      obtain ⟨v, hv⟩ := rData
      rw [bIn, hv, writeAll_of_small lt, checkRequest_of_small] at hr
      obtain rfl := Option.some.inj hr
      exact .small lt rfl ⟨.v1_1, rfl⟩
  · cases hstep

/-- The push-backs of one read are stored exactly when its port fits. -/
theorem storesPushes_iff (h : f.Open n) (hw : 0 ∉ w) : f.StoresPushes w ↔ f.PortFits w := by
  refine imp_congr_right fun hs => ?_
  cases h with
  | readable wf bIn => exact checkRequestPushes_store_iff wf (bIn.writeAll hw)
  | small lt bIn rData =>
    obtain ⟨v, hv⟩ := rData
    unfold reads
    rw [bIn, hv, writeAll_of_small lt]
    exact iff_of_true (fun x hx => absurd hx List.not_mem_nil) id

/-- Whatever the fragments, the push-backs of all calls store all of their bytes just if no call's
input ends inside a port that is, with its host and the `:`, longer than the reserved zone. -/
theorem storesPushes_along_iff (n : Nat) (bOut : Buffer) (ws : List (List UInt8))
    (hz : ∀ w ∈ ws, 0 ∉ w) :
    PartialRun.Along Feed.receive StoresPushes (.start (bufferInitR RESERVED n) bOut) ws ↔
      PartialRun.Along Feed.receive PortFits (.start (bufferInitR RESERVED n) bOut) ws := by
  have hA : PartialRun.Along Feed.receive (fun _ w => 0 ∉ w) (.start (bufferInitR RESERVED n) bOut) ws :=
    PartialRun.along_of_prefixes fun pre w hpre _ _ =>
      hz w (hpre.subset (List.mem_append_right _ List.mem_cons_self))
  exact PartialRun.along_iff (I := Open n) (fun _ _ _ h hw hs => open_receive h hw hs)
    (fun _ _ h hw => storesPushes_iff h hw) (open_start n bOut) hA

/-- A port in two parts, behind a host that leaves room for it. -/
theorem storesPushes_along_two :
    PartialRun.Along Feed.receive StoresPushes (.start (bufferInitR RESERVED 1024) (bufferInit 1024))
      [lit "GET http://a:80", lit "80/"] :=
  (storesPushes_along_iff 1024 (bufferInit 1024) [lit "GET http://a:80", lit "80/"]
    (by decide)).mpr (by decide +kernel)

/-- A host of 250 characters and five digits of its port, where one byte finds no room. -/
theorem port_cut_short :
    ¬PartialRun.Along Feed.receive StoresPushes (.start (bufferInitR RESERVED 1024) (bufferInit 1024))
      [lit "GET http://" ++ List.replicate 250 0x61 ++ lit ":12345"] := by
  decide +kernel

end Feed

end HttpProxy
