import Lisp.Options
import Mathlib.Data.List.TakeWhile

/-! The grammar of command lines: flags, then the script and what belongs to it. A command line is accepted
when it has this form. Only its place tells what a word is, so a script can be given words that look like
flags. -/

namespace Lisp

namespace Options

def skipInitFlags : List String :=
  ["--skip-init", "--skipInit"]

def helpFlags : List String :=
  ["--help", "-h"]

def IsFlag (word : String) : Prop :=
  word ∈ skipInitFlags ∨ word ∈ helpFlags

instance (word : String) : Decidable (IsFlag word) :=
  inferInstanceAs (Decidable (_ ∨ _))

def IsDashed (word : String) : Prop :=
  word.toList.head? = some '-'

instance (word : String) : Decidable (IsDashed word) :=
  inferInstanceAs (Decidable (_ = _))

/-- A command line is as many flags as it begins with, and the rest. -/
structure Parts (words flags rest : List String) : Prop where
  whole : words = flags ++ rest
  areFlags : ∀ f ∈ flags, IsFlag f
  longest : ∀ others, others <+: words → (∀ f ∈ others, IsFlag f) → others <+: flags

/-- What may stand after the flags, with the script that it names and the words that the script is given. -/
inductive Names : List String → Option String → List String → Prop
  | nothing : Names [] none []
  | marker : Names ["--"] none []
  | marked (file : String) (argv : List String) : Names ("--" :: file :: argv) (some file) argv
  | script {file : String} (argv : List String) (undashed : ¬ IsDashed file) :
    Names (file :: argv) (some file) argv

section

variable {words flags rest : List String} {word : String} {skipInit help : Bool}

theorem isFlag_iff :
    IsFlag word ↔ word = "--skip-init" ∨ word = "--skipInit" ∨ word = "--help" ∨ word = "-h" := by
  simp [IsFlag, skipInitFlags, helpFlags, or_assoc]

theorem IsFlag.dashed (h : IsFlag word) : IsDashed word := by
  rcases isFlag_iff.mp h with rfl | rfl | rfl | rfl <;> rfl

theorem not_isFlag_marker : ¬ IsFlag "--" := by
  decide

/-- One flag is noted beside what was noted before. -/
theorem parseAfter_flag (h : IsFlag word) (words : List String) :
    parseAfter skipInit help (word :: words) =
      parseAfter (skipInit || decide (word ∈ skipInitFlags)) (help || decide (word ∈ helpFlags)) words := by
  rcases isFlag_iff.mp h with rfl | rfl | rfl | rfl <;> simp [parseAfter, skipInitFlags, helpFlags]

/-- Flags are noted one by one, so what was noted before is carried along. -/
theorem parseAfter_flags (h : ∀ f ∈ flags, IsFlag f) (rest : List String) :
    parseAfter skipInit help (flags ++ rest) =
      parseAfter (skipInit || flags.any (· ∈ skipInitFlags)) (help || flags.any (· ∈ helpFlags)) rest := by
  induction flags generalizing skipInit help with
  | nil => simp
  | cons flag flags ih =>
    obtain ⟨hflag, hflags⟩ := List.forall_mem_cons.mp h
    rw [List.cons_append, parseAfter_flag hflag, ih hflags]
    simp only [List.any_cons, Bool.or_assoc]

/-- A word that is no flag ends the flags. -/
theorem parseAfter_other (h : ¬ IsFlag word) (words : List String) :
    parseAfter skipInit help (word :: words) =
      if word = "--" then .ok ⟨words.head?, words.tail, skipInit, help⟩
      else if IsDashed word then .error (.unknownFlag word)
      else .ok ⟨some word, words, skipInit, help⟩ := by
  simp only [isFlag_iff, not_or] at h
  simp only [parseAfter, h, decide_false, Bool.or_false, Bool.false_eq_true, if_false]
  rfl

theorem parseAfter_names {file : Option String} {argv : List String} (h : Names rest file argv) :
    parseAfter skipInit help rest = .ok ⟨file, argv, skipInit, help⟩ := by
  cases h with
  | nothing => rfl
  | marker | marked =>
    rw [parseAfter_other not_isFlag_marker, if_pos rfl]
    rfl
  | @script file argv undashed =>
    have hmarker : file ≠ "--" := by
      rintro rfl
      exact undashed rfl
    rw [parseAfter_other fun h => undashed h.dashed, if_neg hmarker, if_neg undashed]

theorem parse_names {file : Option String} {argv : List String} (hflags : ∀ f ∈ flags, IsFlag f)
    (h : Names rest file argv) :
    parse (flags ++ rest) =
      .ok ⟨file, argv, flags.any (· ∈ skipInitFlags), flags.any (· ∈ helpFlags)⟩ := by
  rw [parse, parseAfter_flags hflags, parseAfter_names h, Bool.false_or, Bool.false_or]

theorem parse_unknown (hflags : ∀ f ∈ flags, IsFlag f) (noFlag : ¬ IsFlag word) (noMarker : word ≠ "--")
    (dashed : IsDashed word) (more : List String) :
    parse (flags ++ word :: more) = .error (.unknownFlag word) := by
  rw [parse, parseAfter_flags hflags, parseAfter_other noFlag, if_neg noMarker, if_pos dashed]

theorem exists_names (h : ∀ w ∈ rest.head?, w = "--" ∨ ¬ IsDashed w) : ∃ file argv, Names rest file argv := by
  match rest with
  | [] => exact ⟨_, _, .nothing⟩
  | word :: more =>
    rcases h word rfl with rfl | undashed
    · cases more with
      | nil => exact ⟨_, _, .marker⟩
      | cons file argv => exact ⟨_, _, .marked file argv⟩
    · exact ⟨_, _, .script more undashed⟩

theorem Parts.head_rest (h : Parts words flags rest) (hw : word ∈ rest.head?) : ¬ IsFlag word := by
  intro hflag
  obtain ⟨more, rfl⟩ := List.head?_eq_some_iff.mp hw
  have hprefix : flags ++ [word] <+: words := ⟨more, by simp [h.whole]⟩
  have hflags : ∀ f ∈ flags ++ [word], IsFlag f :=
    List.forall_mem_append.mpr ⟨h.areFlags, List.forall_mem_singleton.mpr hflag⟩
  have hle := (h.longest _ hprefix hflags).length_le
  rw [List.length_append, List.length_singleton] at hle
  omega

theorem exists_parts (words : List String) : ∃ flags rest, Parts words flags rest := by
  refine ⟨words.takeWhile (IsFlag ·), words.dropWhile (IsFlag ·), List.takeWhile_append_dropWhile.symm, ?_, ?_⟩
  · intro f hf
    simpa using List.mem_takeWhile_imp hf
  · rintro others ⟨more, rfl⟩ hothers
    rw [List.takeWhile_append_of_pos (by simpa using hothers)]
    exact List.prefix_append _ _

theorem Parts.exists_unknown (h : Parts words flags rest)
    (hhead : ¬ ∀ w ∈ rest.head?, w = "--" ∨ ¬ IsDashed w) :
    ∃ word more, rest = word :: more ∧
      ∀ others, parse (flags ++ word :: others) = .error (.unknownFlag word) := by
  match rest with
  | [] => exact absurd nofun hhead
  | word :: more =>
    have hword : ¬ (word = "--" ∨ ¬ IsDashed word) := by simpa using hhead
    obtain ⟨noMarker, dashed⟩ := not_or.mp hword
    exact ⟨word, more, rfl, parse_unknown h.areFlags (h.head_rest rfl) noMarker (not_not.mp dashed)⟩

end

/-- A command line is accepted when what stands after its flags is nothing, begins with `--`, or begins with a
word that looks like no flag. Then the script and its words are those that stand there. Otherwise the first word
after the flags is refused, whatever follows it. And any flags, script and words can be given. -/
theorem parse_grammar :
    (∀ words, ∃ flags rest, Parts words flags rest ∧
      ((∃ o, parse words = .ok o) ↔ ∀ w ∈ rest.head?, w = "--" ∨ ¬ IsDashed w) ∧
      (∀ o, parse words = .ok o → Names rest o.file o.argv ∧
        o.skipInit = flags.any (· ∈ skipInitFlags) ∧ o.help = flags.any (· ∈ helpFlags)) ∧
      ∀ e, parse words = .error e → ∃ word more, rest = word :: more ∧ e = .unknownFlag word ∧
        ∀ others, parse (flags ++ word :: others) = .error e) ∧
    ∀ flags file argv, (∀ f ∈ flags, IsFlag f) →
      parse (flags ++ "--" :: file :: argv) =
        .ok ⟨some file, argv, flags.any (· ∈ skipInitFlags), flags.any (· ∈ helpFlags)⟩ := by
  refine ⟨fun words => ?_, fun flags file argv hflags => parse_names hflags (.marked file argv)⟩
  obtain ⟨flags, rest, parts⟩ := exists_parts words
  refine ⟨flags, rest, parts, ?_⟩
  obtain rfl := parts.whole
  -- The rest has one of the forms that name a script, or its first word is refused.
  by_cases hhead : ∀ w ∈ rest.head?, w = "--" ∨ ¬ IsDashed w
  · obtain ⟨file, argv, names⟩ := exists_names hhead
    rw [parse_names parts.areFlags names]
    refine ⟨iff_of_true ⟨_, rfl⟩ hhead, ?_, nofun⟩
    rintro o ⟨⟩
    exact ⟨names, rfl, rfl⟩
  · obtain ⟨word, more, rfl, refused⟩ := parts.exists_unknown hhead
    rw [refused more]
    refine ⟨iff_of_false nofun hhead, nofun, ?_⟩
    rintro e ⟨⟩
    exact ⟨word, more, rfl, rfl, refused⟩

/-- A script and words that look like flags, and a flag that is not known. -/
theorem parse_grammar_dashed :
    let flags := ["-h", "--skipInit", "-h"]
    (∀ f ∈ flags, IsFlag f) ∧
      parse (flags ++ "--" :: "-x" :: ["--help", "--"]) = .ok ⟨some "-x", ["--help", "--"], true, true⟩ ∧
      parse ["--help", "-x", "a"] = .error (.unknownFlag "-x") ∧
      ∃ flags rest, Parts ["--help", "-x", "a"] flags rest ∧ rest.head? = some "-x" ∧
        ∀ others, parse (flags ++ "-x" :: others) = .error (.unknownFlag "-x") := by
  intro flags
  have hflags : ∀ f ∈ flags, IsFlag f := by decide
  obtain ⟨hwords, hmarked⟩ := parse_grammar
  have hunknown : parse ["--help", "-x", "a"] = .error (.unknownFlag "-x") := by decide
  obtain ⟨first, rest, parts, -, -, hrefused⟩ := hwords ["--help", "-x", "a"]
  obtain ⟨word, more, rfl, herror, refused⟩ := hrefused _ hunknown
  cases herror
  exact ⟨hflags, hmarked flags "-x" ["--help", "--"] hflags, hunknown, first, _, parts, rfl, refused⟩

end Options

end Lisp
