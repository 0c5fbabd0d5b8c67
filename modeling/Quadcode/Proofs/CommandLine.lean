import Quadcode.CommandLine
import Quadcode.Proofs.Listing.Text

/-!
# What the command line prints

The command line runs the stages itself, as far as its output needs them, and it numbers the lines
of a listing in its own way. It agrees with `compile` all the same (`outputText_agrees`): it fails
where `compile` fails and with the same fault, only that the tokens of a script can be printed
without the later stages. A coloured listing is the listing with escapes around its addresses, and
`unstyled` takes them away.
-/

namespace Quadcode

open Token

/-! ## Stages -/

theorem compile_eq_map (source : String) :
    compile source = (tokensOf source >>= checkedProgramOf).map lower := by
  unfold compile
  cases tokensOf source with
  | error fault => rfl
  | ok tokens => cases checkedProgramOf tokens <;> rfl

namespace Settings

variable {s : Settings} {source : String}

theorem outputText_tokens (h : s.output = .tokens) :
    s.outputText source =
      (tokensOf source).map fun tokens => String.join (tokens.map fun t => t.describe ++ "\n") := by
  unfold outputText
  rw [h]
  cases tokensOf source <;> rfl

theorem outputText_program (h : s.output = .program) :
    s.outputText source = (tokensOf source >>= checkedProgramOf).map fun program =>
      String.join (program.map fun stmt => stmt.render ++ "\n") := by
  unfold outputText
  rw [h]
  cases tokensOf source with
  | error fault => rfl
  | ok tokens =>
    show (checkedProgramOf tokens >>= _) = (checkedProgramOf tokens).map _
    cases checkedProgramOf tokens <;> rfl

theorem outputText_listing (h : s.output = .listing) :
    s.outputText source =
      (compile source).map fun l => String.join (l.quads.mapIdx s.listingLine) := by
  unfold outputText compile
  rw [h]
  cases tokensOf source with
  | error fault => rfl
  | ok tokens =>
    show (checkedProgramOf tokens >>= _) = Except.map _ (checkedProgramOf tokens >>= _)
    cases checkedProgramOf tokens <;> rfl

/-- The lines that the command line makes are those of the listing, apart from how
addresses are written. -/
theorem join_listingLine (s : Settings) (l : Listing) :
    String.join (l.quads.mapIdx s.listingLine) =
      l.textWith fun address => Style.faint.paint s.color address.repr := by
  rw [List.mapIdx_eq_zipIdx_map]
  rfl

/-- Without colours the command line writes a listing as the listing itself is written. -/
theorem join_listingLine_plain (hc : s.color = false) (l : Listing) :
    String.join (l.quads.mapIdx s.listingLine) = l.text := by
  rw [join_listingLine, hc]
  rfl

theorem join_listingLine_colored (hc : s.color = true) (l : Listing) :
    String.join (l.quads.mapIdx s.listingLine) =
      l.textWith fun address => "\x1b[2m" ++ address.repr ++ "\x1b[0m" := by
  rw [join_listingLine, hc]
  rfl

/-- A stage that the command line runs is one that `compile` runs, with the same fault. -/
theorem compile_eq_error_of_outputText {fault : Fault} (h : s.outputText source = .error fault) :
    compile source = .error fault := by
  cases ho : s.output with
  | tokens =>
    rw [outputText_tokens ho, except_map_eq_error_iff] at h
    rw [compile, h]
    rfl
  | program =>
    rw [outputText_program ho, except_map_eq_error_iff] at h
    rw [compile_eq_map, h]
    rfl
  | listing =>
    rw [outputText_listing ho, except_map_eq_error_iff] at h
    exact h

end Settings

/-! ## Colours -/

/-- The text without the escapes that switch faint letters on and off. -/
def unstyled : List Char → List Char
  | '\x1b' :: '[' :: '2' :: 'm' :: cs => unstyled cs
  | '\x1b' :: '[' :: '0' :: 'm' :: cs => unstyled cs
  | c :: cs => c :: unstyled cs
  | [] => []

theorem unstyled_append {w : List Char} (h : '\x1b' ∉ w) (rest : List Char) :
    unstyled (w ++ rest) = w ++ unstyled rest := by
  induction w with
  | nil => rfl
  | cons c w ih =>
    rw [List.mem_cons, not_or] at h
    have hcons : unstyled (c :: (w ++ rest)) = c :: unstyled (w ++ rest) := by
      rw [unstyled]
      · rintro _ rfl
        exact absurd rfl h.1
      · rintro _ rfl
        exact absurd rfl h.1
    rw [List.cons_append, hcons, ih h.2, List.cons_append]

theorem unstyled_flatMap {α : Type} {f g : α → List Char} {xs : List α}
    (h : ∀ x ∈ xs, ∀ rest, unstyled (f x ++ rest) = g x ++ unstyled rest) :
    unstyled (xs.flatMap f) = xs.flatMap g := by
  induction xs with
  | nil => rfl
  | cons x xs ih =>
    rw [List.forall_mem_cons] at h
    rw [List.flatMap_cons, List.flatMap_cons, h.1, ih h.2]

theorem unstyled_faint {number w : List Char} (hnumber : '\x1b' ∉ number) (hw : '\x1b' ∉ w)
    (rest : List Char) :
    unstyled ("\x1b[2m".toList ++ number ++ "\x1b[0m".toList ++ w ++ rest) =
      number ++ w ++ unstyled rest := by
  have hon (cs : List Char) : unstyled ("\x1b[2m".toList ++ cs) = unstyled cs := rfl
  have hoff (cs : List Char) : unstyled ("\x1b[0m".toList ++ cs) = unstyled cs := rfl
  simp only [List.append_assoc]
  rw [hon, unstyled_append hnumber, hoff, unstyled_append hw]

theorem unstyled_textWith {l : Listing} (h : ∀ q ∈ l.quads, q.Framed) :
    unstyled (l.textWith fun address => "\x1b[2m" ++ address.repr ++ "\x1b[0m").toList =
      l.text.toList := by
  rw [Listing.text, Listing.toList_textWith, Listing.toList_textWith, Listing.lines, Listing.lines,
    List.flatMap_map, List.flatMap_map]
  apply unstyled_flatMap
  rintro ⟨q, address⟩ hq rest
  have hquad := h q (List.fst_mem_of_mem_zipIdx hq)
  have hnumber : '\x1b' ∉ address.repr.toList :=
    not_mem_of_isField (isField_repr address) (by decide)
  have hline : '\x1b' ∉ '\t' :: q.text.toList ++ ['\n'] := by
    have htext : '\x1b' ∉ q.text.toList := hquad.not_mem_text (by decide) (by decide)
    simpa using htext
  have hwhole := unstyled_faint hnumber hline rest
  simpa only [String.toList_append, List.append_assoc, List.cons_append, List.nil_append]
    using hwhole

/-! ## Answers -/

/-- The contents of the file are read, and the output that is asked for has this text. -/
def Settings.Prints (s : Settings) (contents : Except ReadError String) (text : String) : Prop :=
  ∃ source, contents = .ok source ∧ s.outputText source = .ok text

theorem Settings.respond_cases (s : Settings) (contents : Except ReadError String) :
    (∃ text, s.Prints contents text ∧
      s.respond contents = { exit := 0, stdout := text, stderr := "" }) ∨
      (∀ text, ¬ s.Prints contents text) ∧ (s.respond contents).exit = 1 ∧
        (s.respond contents).stdout = "" := by
  cases contents with
  | error e =>
    right
    refine ⟨?_, rfl, rfl⟩
    rintro text ⟨_, hcontents, _⟩
    cases hcontents
  | ok source =>
    cases htext : s.outputText source with
    | ok text =>
      left
      refine ⟨text, ⟨source, rfl, htext⟩, ?_⟩
      simp only [respond, htext]
    | error fault =>
      right
      refine ⟨?_, by simp only [respond, htext], by simp only [respond, htext]⟩
      rintro text ⟨_, hcontents, hprints⟩
      cases hcontents
      rw [htext] at hprints
      cases hprints

/-- The command line agrees with `compile` on every script, in what it prints and in how it fails,
and its exit status tells the two apart. -/
theorem outputText_agrees (s : Settings) (source : String) :
    (s.output = .listing → s.color = false →
      ∀ text, s.outputText source = .ok text ↔ ∃ l, compile source = .ok l ∧ text = l.text) ∧
    (s.output = .listing → s.color = true → ∀ text, s.outputText source = .ok text ↔
      ∃ l, compile source = .ok l ∧
      text = (l.textWith fun address => "\x1b[2m" ++ address.repr ++ "\x1b[0m") ∧
      String.ofList (unstyled text.toList) = l.text) ∧
    (s.output = .program →
      ((∃ text, s.outputText source = .ok text) ↔ ∃ l, compile source = .ok l)) ∧
    (s.output = .tokens → ((∃ text, s.outputText source = .ok text) ↔ ∃ ts, lex source = .ok ts)) ∧
    (∀ fault, s.outputText source = .error fault → compile source = .error fault) ∧
    ∀ (read : String → Except ReadError ByteArray) (args : List String) (answer : Response),
      Request.ofArguments? args = some (.compile s) →
      Id.run (Response.ofArguments (fun file => pure (read file)) args) = answer →
      (∃ text, s.Prints ((read s.file).bind decodeSource) text ∧
        answer = { exit := 0, stdout := text, stderr := "" }) ∨
      (∀ text, ¬ s.Prints ((read s.file).bind decodeSource) text) ∧ answer.exit = 1 ∧
        answer.stdout = "" := by
  refine ⟨fun ho hc text => ?_, fun ho hc text => ?_, fun ho => ?_, fun ho => ?_, fun fault h => ?_,
    fun read args answer hargs hanswer => ?_⟩
  · simp only [Settings.outputText_listing ho, except_map_eq_ok_iff,
      Settings.join_listingLine_plain hc]
    exact exists_congr fun l => and_congr_right fun _ => eq_comm
  · simp only [Settings.outputText_listing ho, except_map_eq_ok_iff,
      Settings.join_listingLine_colored hc]
    refine exists_congr fun l => and_congr_right fun hl => ⟨?_, fun h => h.1.symm⟩
    rintro rfl
    refine ⟨rfl, ?_⟩
    rw [← String.toList_inj, String.toList_ofList]
    exact unstyled_textWith (compile_framed hl)
  · rw [Settings.outputText_program ho, compile_eq_map, exists_map_eq_ok_iff, exists_map_eq_ok_iff]
  · rw [Settings.outputText_tokens ho, exists_map_eq_ok_iff]
    exact exists_congr fun ts => except_mapError_eq_ok_iff
  · exact Settings.compile_eq_error_of_outputText h
  · have hrespond : answer = s.respond ((read s.file).bind decodeSource) := by
      rw [← hanswer, Response.ofArguments, hargs]
      rfl
    rw [hrespond]
    exact s.respond_cases _

/-- What is asked for by default. -/
def coloredSettings : Settings := { file := "main.tet" }

/-- A script with one operation. -/
def sumScript : String := "var x = (1 + 1);"

/-- The coloured listing of `sumScript`. -/
def coloredText : String :=
  "\x1b[2m0\x1b[0m\t(+, 1, 1, temp0)\n\x1b[2m1\x1b[0m\t(=, temp0, _, x)\n"

theorem outputText_agrees_colored :
    Request.ofArguments? ["main.tet"] = some (.compile coloredSettings) ∧
      coloredSettings.outputText sumScript = .ok coloredText ∧
      (∃ l, compile sumScript = .ok l ∧ String.ofList (unstyled coloredText.toList) = l.text) ∧
      Id.run (Response.ofArguments (fun _ => pure (.ok sumScript.toUTF8)) ["main.tet"]) =
        { exit := 0, stdout := coloredText, stderr := "" } := by
  have hargs : Request.ofArguments? ["main.tet"] = some (.compile coloredSettings) := by
    decide +kernel
  have htext : coloredSettings.outputText sumScript = .ok coloredText :=
    eq_ok_of_toOption (by decide +kernel)
  have hsource : decodeSource sumScript.toUTF8 = .ok sumScript :=
    eq_ok_of_toOption (by decide +kernel)
  obtain ⟨-, hlisting, -, -, -, hanswers⟩ := outputText_agrees coloredSettings sumScript
  obtain ⟨l, hl, -, hplain⟩ := (hlisting rfl rfl coloredText).1 htext
  refine ⟨hargs, htext, ⟨l, hl, hplain⟩, ?_⟩
  obtain ⟨text, ⟨source, hread, hprints⟩, hanswer⟩ | ⟨hnone, -⟩ :=
    hanswers (fun _ => .ok sumScript.toUTF8) ["main.tet"] _ hargs rfl
  · obtain rfl : sumScript = source := Except.ok.inj (hsource.symm.trans hread)
    obtain rfl : coloredText = text := Except.ok.inj (htext.symm.trans hprints)
    exact hanswer
  · exact absurd ⟨sumScript, hsource, htext⟩ (hnone coloredText)

end Quadcode
