import Reckon.Proofs.Command.Ending
set_option autoImplicit false

namespace Reckon

namespace Text

variable {isBreak isBreak' : Char → Bool} {cs current done : List Char}
  {complete : List (List Char)}

theorem linesOnto_congr (h : ∀ c ∈ cs, isBreak c = isBreak' c) :
    linesOnto isBreak complete current cs = linesOnto isBreak' complete current cs := by
  induction cs generalizing complete current with
  | nil => rfl
  | cons c cs ih =>
    obtain ⟨hc, hcs⟩ := List.forall_mem_cons.1 h
    simp only [linesOnto, hc, ih hcs]

theorem unifyOnto_of_not_mem (h : '\r' ∉ cs) : unifyOnto done cs = done.reverse ++ cs := by
  induction cs generalizing done with
  | nil => simp [unifyOnto]
  | cons c cs ih =>
    obtain ⟨hc, hcs⟩ := List.ne_and_not_mem_of_not_mem_cons h
    rw [unifyOnto, ih hcs, List.reverse_cons, List.append_assoc, List.singleton_append]
    · rintro us rfl
      exact fun _ => hc rfl
    · exact fun heq => hc heq.symm

theorem fileLines_eq_inputLines {text : String} (hreturn : '\r' ∉ text.toList)
    (hbreaks : ∀ c ∈ text.toList, isFileBreak c = true → isLineFeed c = true) :
    fileLines text = inputLines text := by
  have hsame : ∀ c ∈ text.toList, isFileBreak c = isLineFeed c := by
    intro c hc
    cases hfeed : isLineFeed c with
    | false => exact Bool.eq_false_iff.2 fun hbreak => by simp [hbreaks c hc hbreak] at hfeed
    | true =>
      have hcode : c.toNat = 10 := by simpa [isLineFeed] using hfeed
      simp [isFileBreak, hcode]
  rw [fileLines, inputLines, unifyReturns, unifyOnto_of_not_mem hreturn, List.reverse_nil,
    List.nil_append, lines, lines, linesOnto_congr hsame]

end Text

namespace Invocation

variable {i : Invocation} {name text input : String} {lookup : String → FileLookup}

theorem fromUTF8?_toUTF8 (text : String) : String.fromUTF8? text.toUTF8 = some text :=
  dif_pos text.isValidUTF8

theorem perform_file [Stack] (hname : i.expressions = [name])
    (hread : lookup name = .found text.toUTF8)
    (hsame : Text.fileLines text = Text.inputLines text) :
    i.perform lookup input =
      .ok ⟨(i.ending (Text.inputLines text)).exitCode,
        concatLines i.help ++ (i.ending (Text.inputLines text)).output⟩ := by
  have honly : ¬ i.ListsOnly := by simp [ListsOnly, hname]
  have hlines : i.lines lookup input = .ok (Text.inputLines text) := by
    simp only [lines, hname, hread, fromUTF8?_toUTF8, hsame]
  exact perform_of_lines honly hlines

theorem perform_input [Stack] (hnone : i.expressions = []) (hlist : i.listOperators = false) :
    i.perform lookup text = .ok (i.ending (Text.inputLines text)) := by
  have honly : ¬ i.ListsOnly := by simp [ListsOnly, hlist]
  have hlines : i.lines lookup text = .ok (Text.inputLines text) := by simp only [lines, hnone]
  have hhelp : concatLines i.help = "" := by simp [help, hlist, concatLines]
  rw [perform_of_lines honly hlines, hhelp, String.empty_append]

end Invocation

/-- A file and the input are run alike if line feeds are the only breaks in the text. With the
registry to be listed a file is run after that, and the input is not run at all. -/
theorem command_source [Stack] {i : Invocation} {name text : String} {lookup : String → FileLookup}
    {withFile withInput : List String}
    (hfile : Invocation.ofArguments? withFile = some { i with expressions := [name] })
    (hinput : Invocation.ofArguments? withInput = some { i with expressions := [] })
    (hread : lookup name = .found text.toUTF8) (hreturn : '\r' ∉ text.toList)
    (hbreaks : ∀ c ∈ text.toList, Text.isFileBreak c = true → Text.isLineFeed c = true)
    (input : String) (other : String → FileLookup) :
    let registry := Invocation.concatLines Invocation.operatorHelp
    let plain : Invocation := { i with expressions := [], listOperators := false }
    ∃ ending, plain.perform other text = .ok ending ∧
      (i.listOperators = false →
        command withFile lookup input = .ok ending ∧
          command withInput other text = .ok ending) ∧
      (i.listOperators = true →
        command withFile lookup input = .ok ⟨ending.exitCode, registry ++ ending.output⟩ ∧
          command withInput other text = .ok ⟨0, registry⟩) := by
  intro registry plain
  have hsame := Text.fileLines_eq_inputLines hreturn hbreaks
  have hcommand : command withFile lookup input =
      ({ i with expressions := [name] } : Invocation).perform lookup input := by
    simp only [command, hfile]
  have hcommand' : command withInput other text =
      ({ i with expressions := [] } : Invocation).perform other text := by
    simp only [command, hinput]
  have hplain : plain.perform other text = .ok (i.ending (Text.inputLines text)) :=
    Invocation.perform_input rfl rfl
  have hran : command withFile lookup input =
      .ok ⟨(i.ending (Text.inputLines text)).exitCode,
        Invocation.concatLines i.help ++ (i.ending (Text.inputLines text)).output⟩ :=
    hcommand.trans (Invocation.perform_file rfl hread hsame)
  refine ⟨_, hplain, fun hlist => ⟨?_, ?_⟩, fun hlist => ⟨?_, ?_⟩⟩
  · have hhelp : Invocation.concatLines i.help = "" := by
      simp [Invocation.help, hlist, Invocation.concatLines]
    rw [hran, hhelp, String.empty_append]
  · exact hcommand'.trans (Invocation.perform_input rfl hlist)
  · have hhelp : i.help = Invocation.operatorHelp := if_pos hlist
    rw [hran, hhelp]
  · exact hcommand'.trans (Invocation.perform_of_listsOnly ⟨hlist, rfl⟩)

theorem command_source_list :
    let text := "f(x)=x+1\n\nf(2),y\n"
    let output := "3\nUnknown value y.\nf(x) = +(x,1)\n"
    command ["--list", "calc"] (fun _ => .found text.toUTF8) "" = .ok ⟨1, output⟩ ∧
      command ["--list"] (fun _ => .missing) text = .ok ⟨1, output⟩ := by
  intro text output
  let i : Invocation := ⟨[], false, true, false⟩
  have hfile : Invocation.ofArguments? ["--list", "calc"] =
      some { i with expressions := ["calc"] } := by decide
  have hinput : Invocation.ofArguments? ["--list"] = some { i with expressions := [] } := by decide
  let lookup : String → FileLookup := fun _ => .found text.toUTF8
  have hread : lookup "calc" = .found text.toUTF8 := rfl
  have hreturn : '\r' ∉ text.toList := by decide +kernel
  have hall : (text.toList.all fun c => !Text.isFileBreak c || Text.isLineFeed c) = true := by
    decide +kernel
  have hbreaks : ∀ c ∈ text.toList, Text.isFileBreak c = true → Text.isLineFeed c = true := by
    intro c hc hbreak
    simpa [hbreak] using List.all_eq_true.1 hall c hc
  obtain ⟨ending, hplain, hsame, -⟩ :=
    command_source hfile hinput hread hreturn hbreaks "" fun _ => .missing
  have hending : Except.ok ending = Except.ok ⟨1, output⟩ := hplain.symm.trans (by decide +kernel)
  rw [Except.ok.inj hending] at hsame
  exact hsame rfl

/-- With the registry listed only the file is run, and a form feed starts a new line in the file
but is a blank in the input. -/
theorem command_source_differs :
    let registry := Invocation.concatLines Invocation.operatorHelp
    let sum := "1+1\n"
    let fed := "1\x0c+2\n"
    (command ["--operators", "calc"] (fun _ => .found sum.toUTF8) "" = .ok ⟨0, registry ++ "2\n"⟩ ∧
      command ["--operators"] (fun _ => .missing) sum = .ok ⟨0, registry⟩) ∧
    (command ["calc"] (fun _ => .found fed.toUTF8) "" =
        .ok ⟨1, "1\nBinary operator is missing an operand.\n"⟩ ∧
      command [] (fun _ => .missing) fed = .ok ⟨0, "3\n"⟩) := by
  intro registry sum fed
  let onFile : Invocation := ⟨["calc"], false, false, true⟩
  let onInput : Invocation := ⟨[], false, false, true⟩
  have hfile : Invocation.ofArguments? ["--operators", "calc"] = some onFile := by decide
  have hinput : Invocation.ofArguments? ["--operators"] = some onInput := by decide
  have hsame : Text.fileLines sum = Text.inputLines sum := by decide +kernel
  have hending : onFile.ending (Text.inputLines sum) = ⟨0, "2\n"⟩ := by decide +kernel
  have hran : onFile.perform (fun _ => .found sum.toUTF8) "" = .ok ⟨0, registry ++ "2\n"⟩ := by
    rw [Invocation.perform_file rfl rfl hsame, hending]
    rfl
  refine ⟨⟨?_, ?_⟩, by decide +kernel, by decide +kernel⟩
  · simp only [command, hfile, hran]
  · simp only [command, hinput]
    exact Invocation.perform_of_listsOnly ⟨rfl, rfl⟩

end Reckon
