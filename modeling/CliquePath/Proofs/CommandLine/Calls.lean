import CliquePath.CommandLine.Call
import CliquePath.Proofs.CommandLine.Arguments
import Mathlib

set_option autoImplicit false

/-!
# What a call leaves behind

This module says what a call of the command line can do to the streams and files. `Outcome` has one
rule for each way in which a call ends, and `run` always follows one of them. A failed call prints
nothing and leaves every file as it was; a name for the text in the arguments moves the text from
standard output to the file and does nothing else.

`Session` is a host that is nothing but its files and streams. A call that is made step by step on
it leaves what `run` says.
-/

namespace CliquePath.CommandLine

/-! ## Files -/

theorem lookup_entry (other key : String) (bytes : ByteArray)
    (rest : List (String × ByteArray)) :
    ((key, bytes) :: rest).lookup other = if other = key then some bytes else rest.lookup other := by
  rw [List.lookup_cons]
  by_cases h : other = key
  · simp [h]
  · have hb : (other == key) = false := by simpa using h
    simp [hb, h]

/-- Writing a file changes its content and that of no other. -/
theorem lookup_put (name other : String) (bytes : ByteArray) (files : List (String × ByteArray)) :
    (Directory.put name bytes files).lookup other =
      if other = name then some bytes else files.lookup other := by
  induction files with
  | nil => rw [Directory.put, lookup_entry]
  | cons entry rest ih =>
      obtain ⟨key, old⟩ := entry
      rw [Directory.put, lookup_entry]
      by_cases hkey : key = name
      · rw [if_pos hkey, lookup_entry, hkey]
        split <;> rfl
      · rw [if_neg hkey, lookup_entry, ih]
        by_cases h : other = key
        · rw [if_pos h, if_neg (h ▸ hkey), if_pos h]
        · rw [if_neg h, if_neg h]

theorem decodeText_toUTF8 (text : String) : decodeText text.toUTF8 = .ok text := by
  have hvalid : text.toUTF8.IsValidUTF8 := text.isValidUTF8
  rw [decodeText, String.fromUTF8?, dif_pos hvalid]
  rfl

variable {w : World} {a : Arguments} {args : List String} {path name text : String}

/-- The path leads to a file, there or not, that the system lets be written. -/
structure World.Writable (w : World) (path name : String) : Prop where
  leads : w.resolve path = .ok name
  allowed : w.refusal? name = none

theorem World.Writable.writeText (h : w.Writable path name) (text : String) :
    w.writeText path text = .ok (w.directory.write name text) := by
  rw [World.writeText, h.leads]
  simp only [bind, Except.bind, h.allowed]
  rfl

/-- A path that leads to a file reads the text of this file. -/
theorem World.readText_of_content? (hname : w.resolve path = .ok name)
    (hcontent : w.directory.content? name = some text.toUTF8) :
    w.readText (.file path) = .ok text := by
  rw [World.readText, World.readBytes, hname]
  simp only [bind, Except.bind, Directory.read, hcontent]
  exact decodeText_toUTF8 text

/-! ## The ways in which a call ends -/

/-- What a call with these arguments can leave behind. -/
inductive Outcome (args : List String) (w : World) : Result → Prop
  /-- The arguments do not fit. -/
  | rejected : Arguments.parse? args = none → Outcome args w (.failed w 2 usage)
  /-- There is no text, or it cannot be written. -/
  | failed {a : Arguments} (fault : CallFault) :
      Arguments.parse? args = some a → Outcome args w (.failed w fault.exitCode fault.message)
  /-- The text is printed. -/
  | printed {a : Arguments} {text : String} :
      Arguments.parse? args = some a → a.out = none → answer w.encode a (w.inputOf a) = .ok text →
      Outcome args w ⟨0, text, "", w.directory⟩
  /-- The text is written to a file. -/
  | written {a : Arguments} {text path : String} {directory : Directory} :
      Arguments.parse? args = some a → a.out = some path → answer w.encode a (w.inputOf a) = .ok text →
      w.writeText path text = .ok directory → Outcome args w ⟨0, "", "", directory⟩

theorem CallFault.exitCode_cases (fault : CallFault) : fault.exitCode = 1 ∨ fault.exitCode = 101 := by
  cases fault with
  | panic cause => exact .inr rfl
  | io fault => exact .inl rfl
  | json reason => exact .inl rfl
  | file fault => exact .inl rfl
  | engine failure => exact .inl rfl

/-- A fault is neither a success nor a misuse. -/
theorem CallFault.exitCode_ne (fault : CallFault) : fault.exitCode ≠ 0 ∧ fault.exitCode ≠ 2 := by
  rcases fault.exitCode_cases with h | h
  · rw [h]
    decide
  · rw [h]
    decide

theorem run_outcome (args : List String) (w : World) : Outcome args w (run args w) := by
  unfold run
  split
  next hparse => exact .rejected hparse
  next a hparse =>
    unfold execute
    cases hanswer : answer w.encode a (w.inputOf a) with
    | error fault => exact .failed fault hparse
    | ok text =>
        cases hout : a.out with
        | none =>
            simp only [Arguments.sink, hout, World.deliver]
            exact .printed hparse hout hanswer
        | some path =>
            simp only [Arguments.sink, hout, World.deliver]
            cases hwrite : w.writeText path text with
            | error fault => exact .failed (.io fault) hparse
            | ok directory => exact .written hparse hout hanswer hwrite

theorem exitCode_run_eq_two_iff (args : List String) (w : World) :
    (run args w).exitCode = 2 ↔ Arguments.parse? args = none := by
  have houtcome := run_outcome args w
  generalize run args w = r at houtcome ⊢
  cases houtcome with
  | rejected hparse => exact iff_of_true rfl hparse
  | failed fault hparse =>
      exact iff_of_false fault.exitCode_ne.2 (by simp [hparse])
  | printed hparse =>
      exact iff_of_false (fun hcode => by cases hcode) (by simp [hparse])
  | written hparse =>
      exact iff_of_false (fun hcode => by cases hcode) (by simp [hparse])

/-- A failed call prints nothing and changes no file. -/
theorem run_unchanged_of_failed (hcode : (run args w).exitCode ≠ 0) :
    (run args w).output = "" ∧ (run args w).directory = w.directory := by
  have houtcome := run_outcome args w
  generalize run args w = r at houtcome hcode ⊢
  cases houtcome with
  | rejected => exact ⟨rfl, rfl⟩
  | failed => exact ⟨rfl, rfl⟩
  | printed => exact absurd rfl hcode
  | written => exact absurd rfl hcode

/-! ## Moving the text to a file -/

theorem run_of_printed (hparse : Arguments.parse? args = some a) (hout : a.out = none)
    (hanswer : answer w.encode a (w.inputOf a) = .ok text) : run args w = ⟨0, text, "", w.directory⟩ := by
  simp [run, hparse, execute, hanswer, Arguments.sink, hout, World.deliver]

theorem run_of_written {directory : Directory} (hparse : Arguments.parse? args = some a)
    (hout : a.out = some path) (hanswer : answer w.encode a (w.inputOf a) = .ok text)
    (hwrite : w.writeText path text = .ok directory) :
    run args w = ⟨0, "", "", directory⟩ := by
  simp [run, hparse, execute, hanswer, Arguments.sink, hout, World.deliver, hwrite, bind,
    Except.bind, pure, Except.pure]

/-- A call that prints a text writes the same text if it gets the name of a writable file. -/
theorem run_append_out (hout : "--out" ∉ args) (hend : "--" ∉ args)
    (hcode : (run args w).exitCode = 0) (hp : w.Writable path name) :
    run (args ++ ["--out", path]) w =
      ⟨0, "", "", w.directory.write name (run args w).output⟩ := by
  have houtcome := run_outcome args w
  generalize run args w = r at houtcome hcode ⊢
  cases houtcome with
  | rejected => cases hcode
  | failed fault => exact absurd hcode fault.exitCode_ne.1
  | printed hparse hnone hanswer =>
      obtain ⟨-, happend⟩ := Arguments.parse?_append_out path hout hend hparse
      exact run_of_written happend rfl hanswer (hp.writeText _)
  | written hparse hsome =>
      obtain ⟨hnone, -⟩ := Arguments.parse?_append_out path hout hend hparse
      rw [hsome] at hnone
      cases hnone

/-! ## Step by step -/

/-- What a call has found and left behind up to a step. -/
structure Session where
  world : World
  output : String := ""
  errors : String := ""

/-- The host that keeps a session. A file is written as a whole or not at all. -/
def Session.host (encode : Encoder) : Host (StateM Session) where
  readInput := fun s => (.ok s.world.input, s)
  readFile path := fun s => (s.world.readBytes path, s)
  print text := fun s => (.ok (), { s with output := s.output ++ text })
  report message := fun s => ((), { s with errors := s.errors ++ (message ++ "\n") })
  writeFile path text := fun s =>
    match s.world.writeText path text with
    | .error fault => (.error fault, s)
    | .ok directory => (.ok (), { s with world := { s.world with directory } })
  encode := encode

/-- Reading changes nothing. -/
theorem Session.readSource_host (w : World) (a : Arguments) :
    (Session.host w.encode).readSource a.source? { world := w } = (w.inputOf a, { world := w }) := by
  unfold World.inputOf
  cases a.source? with
  | none => rfl
  | some source => cases source <;> rfl

/-- A text that cannot be written leaves everything as it was. -/
theorem Session.writeSink_of_error {sink : Sink} {fault : IoFault}
    (h : w.deliver text sink = .error fault) :
    (Session.host w.encode).writeSink text sink { world := w } = (.error fault, { world := w }) := by
  cases sink with
  | standardOutput => cases h
  | file path =>
      cases hwrite : w.writeText path text with
      | error refused =>
          simp only [World.deliver, hwrite, bind, Except.bind] at h
          cases h
          simp [Host.writeSink, Session.host, hwrite]
      | ok directory =>
          simp only [World.deliver, hwrite, bind, Except.bind] at h
          cases h

/-- A text that is written is all that changes. -/
theorem Session.writeSink_of_ok {sink : Sink} {result : Result}
    (h : w.deliver text sink = .ok result) :
    result.exitCode = 0 ∧ (Session.host w.encode).writeSink text sink { world := w } = (.ok (),
      { world := { w with directory := result.directory }
        output := result.output
        errors := result.errors }) := by
  cases sink with
  | standardOutput =>
      cases h
      exact ⟨rfl, rfl⟩
  | file path =>
      cases hwrite : w.writeText path text with
      | error refused =>
          simp only [World.deliver, hwrite, bind, Except.bind] at h
          cases h
      | ok directory =>
          simp only [World.deliver, hwrite, bind, Except.bind] at h
          cases h
          exact ⟨rfl, by simp [Host.writeSink, Session.host, hwrite]⟩

/-- Made step by step, a call leaves what `run` says. -/
theorem Session.call_host (args : List String) (w : World) :
    (Session.host w.encode).call args { world := w } = ((run args w).exitCode,
      { world := { w with directory := (run args w).directory }
        output := (run args w).output
        errors := (run args w).errors }) := by
  rw [Host.call, run]
  -- Without arguments that fit, neither side reads anything.
  cases Arguments.parse? args with
  | none => rfl
  | some a =>
      have hencode : (Session.host w.encode).encode = w.encode := rfl
      simp only [execute, bind, StateT.bind, Session.readSource_host w a, hencode]
      cases answer w.encode a (w.inputOf a) with
      | error fault => rfl
      | ok text =>
          cases hdeliver : w.deliver text a.sink with
          | error fault =>
              simp only [StateT.bind, Session.writeSink_of_error hdeliver, hdeliver]
              rfl
          | ok result =>
              obtain ⟨hcode, hwritten⟩ := Session.writeSink_of_ok hdeliver
              simp only [StateT.bind, hwritten, hdeliver, hcode]
              rfl

/-! ## What a call changes -/

/-- A call leaves what its steps leave one after the other. It ends with exit code 2 exactly if the
arguments do not fit. A call that fails prints nothing and changes no file. A call that prints a
text and gets the name of a writable file behind its arguments prints nothing: the file has the
text, even if it is the one that was read, and all others are as before. -/
theorem run_effects (args : List String) (w : World) :
    (Session.host w.encode).call args { world := w } = ((run args w).exitCode,
      { world := { w with directory := (run args w).directory }
        output := (run args w).output
        errors := (run args w).errors }) ∧
    ((run args w).exitCode = 2 ↔ Arguments.parse? args = none) ∧
    ((run args w).exitCode ≠ 0 → (run args w).output = "" ∧ (run args w).directory = w.directory) ∧
    ("--out" ∉ args → "--" ∉ args → (run args w).exitCode = 0 →
      ∀ path name, w.Writable path name →
        let redirected := run (args ++ ["--out", path]) w
        redirected.exitCode = 0 ∧ redirected.output = "" ∧
          redirected.directory.content? name = some (run args w).output.toUTF8 ∧
          World.readText { w with directory := redirected.directory } (.file path) =
            .ok (run args w).output ∧
          ∀ other, other ≠ name →
            redirected.directory.content? other = w.directory.content? other) := by
  refine ⟨Session.call_host args w, exitCode_run_eq_two_iff args w, run_unchanged_of_failed, ?_⟩
  · intro hout hend hcode path name hp redirected
    have hrun : redirected = _ := run_append_out hout hend hcode hp
    rw [hrun]
    -- Only the file of that name differs after writing.
    have hcontent : ∀ other, (w.directory.write name (run args w).output).content? other =
        if other = name then some (run args w).output.toUTF8 else w.directory.content? other :=
      fun other => lookup_put name other _ _
    have hname := (hcontent name).trans (if_pos rfl)
    exact ⟨rfl, rfl, hname, World.readText_of_content? hp.leads hname,
      fun other hne => (hcontent other).trans (if_neg hne)⟩

/-- A graph file that names the end of its edge first. -/
def backwards : String :=
  "#nodes section\n2\n\x7ba\x7d\n\x7bb\x7d\n#edges section\n1\n2 1\n"

/-- The same file as it is written. -/
def forwards : String :=
  "#nodes section\n2\n\x7ba\x7d\n\x7bb\x7d\n\n#edges section\n1\n1 2\n"

/-- The file as all there is. -/
def onlyBackwards : World := { input := .empty, directory := ⟨[("g", backwards.toUTF8)]⟩ }

theorem run_convert_onlyBackwards :
    run ["convert", "g"] onlyBackwards = ⟨0, forwards, "", onlyBackwards.directory⟩ := by
  have hleads : onlyBackwards.resolve "g" = .ok "g" := by cbv
  have hread : onlyBackwards.readText (.file "g") = .ok backwards :=
    World.readText_of_content? hleads rfl
  refine run_of_printed (a := { command := .convert, input := some "g" }) (by cbv) rfl ?_
  have hinput : onlyBackwards.inputOf { command := .convert, input := some "g" } =
      .ok backwards := hread
  rw [hinput]
  show produce plainEncoder { command := .convert, input := some "g" } backwards = .ok forwards
  cbv

theorem run_effects_inPlace :
    (run ["convert", "g", "--out", "g"] onlyBackwards).exitCode = 0 ∧
      (run ["convert", "g", "--out", "g"] onlyBackwards).output = "" ∧
      World.readText { onlyBackwards with
        directory := (run ["convert", "g", "--out", "g"] onlyBackwards).directory } (.file "g") =
          .ok forwards := by
  obtain ⟨-, -, -, hredirect⟩ := run_effects ["convert", "g"] onlyBackwards
  rw [run_convert_onlyBackwards] at hredirect
  obtain ⟨hcode, hsilent, -, htext, -⟩ := hredirect (by decide) (by decide) rfl "g" "g"
    ⟨by cbv, rfl⟩
  exact ⟨hcode, hsilent, htext⟩

end CliquePath.CommandLine
