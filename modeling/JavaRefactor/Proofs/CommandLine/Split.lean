import JavaRefactor.CommandLine.Split
import Mathlib.Data.List.TakeWhile

/-!
# `Proofs.CommandLine.Split` — a command line is split without loss

Behind the program's name, the words of the settings are the longest beginning of a command line in which
each setting has its value, behind an equals sign or as the next word. All other words are left to the
command, in their order, so that the two parts make up the command line.

## Contents
- **`SettingWords`**, settings with their values, told without the scan; **`NamesSetting`** and
  **`LacksValue`**.
- **One word.** `opens_own_iff`, `opens_alone_iff`: what the scan finds out about a word.
- **The scan.** `leading_append`, how it passes over settings, and `leading_cases`, where it ends.
- **`split_lossless`**.
-/

namespace JavaRefactor.CommandLine

variable {α : Type}

/-! ## Settings with their values -/

/-- `SettingWords text words`: the words are settings, each with its value. -/
inductive SettingWords (text : α → String) : List α → Prop where
  | nil : SettingWords text []
  /-- A setting with its value behind an equals sign. -/
  | own {word : α} {words : List α} {name value : String} (hname : name ∈ settingNames)
      (hword : text word = "--" ++ name ++ "=" ++ value) (hwords : SettingWords text words) :
      SettingWords text (word :: words)
  /-- A setting with the next word as its value, whatever that word looks like. -/
  | next {word value : α} {words : List α} {name : String} (hname : name ∈ settingNames)
      (hword : text word = "--" ++ name) (hwords : SettingWords text words) :
      SettingWords text (word :: value :: words)

/-- Whether a word names a setting, with its value or without. -/
def NamesSetting (word : String) : Prop :=
  ∃ name ∈ settingNames, word = "--" ++ name ∨ ∃ value, word = "--" ++ name ++ "=" ++ value

/-- Whether the words are settings with their values and one more, whose value should have come next. -/
def LacksValue (text : α → String) (words : List α) : Prop :=
  ∃ front last name, words = front ++ [last] ∧ SettingWords text front ∧ name ∈ settingNames ∧
    text last = "--" ++ name

/-! ## One word -/

/-- No setting has an equals sign in its name. -/
theorem ne_of_mem_settingNames {name : String} (h : name ∈ settingNames) :
    ∀ c ∈ ("--" ++ name).toList, (c != '=') = true := by
  have hall : (settingNames.all fun name => ("--" ++ name).toList.all (· != '=')) = true := by
    decide +kernel
  exact List.all_eq_true.mp (List.all_eq_true.mp hall name h)

theorem opensSetting_iff {word : String} : opensSetting word = true ↔
    ∃ name ∈ settingNames, word.toList.takeWhile (· != '=') = ("--" ++ name).toList := by
  rw [opensSetting, List.contains_iff_mem, List.mem_map]
  simp only [String.toList_append, eq_comm]

/-- A setting without a value of its own is written as its name behind two dashes. -/
theorem opens_alone_iff {word : String} : (opensSetting word = true ∧ hasOwnValue word = false) ↔
    ∃ name ∈ settingNames, word = "--" ++ name := by
  have hown : hasOwnValue word = false ↔ ∀ c ∈ word.toList, (c != '=') = true := by
    simp only [hasOwnValue, List.contains_eq_mem, decide_eq_false_iff_not, bne_iff_ne]
    exact List.forall_mem_ne'.symm
  rw [opensSetting_iff, hown]
  constructor
  · rintro ⟨⟨name, hname, hword⟩, hnone⟩
    rw [List.takeWhile_eq_self_iff.mpr hnone] at hword
    exact ⟨name, hname, String.toList_inj.mp hword⟩
  · rintro ⟨name, hname, rfl⟩
    have hnone := ne_of_mem_settingNames hname
    exact ⟨⟨name, hname, List.takeWhile_eq_self_iff.mpr hnone⟩, hnone⟩

/-- A setting with a value of its own is written as its name behind two dashes, an equals sign and the
    value. -/
theorem opens_own_iff {word : String} : (opensSetting word = true ∧ hasOwnValue word = true) ↔
    ∃ name ∈ settingNames, ∃ value, word = "--" ++ name ++ "=" ++ value := by
  have hown : hasOwnValue word = true ↔ '=' ∈ word.toList := by simp [hasOwnValue]
  rw [opensSetting_iff, hown]
  constructor
  · rintro ⟨⟨name, hname, hword⟩, hmem⟩
    have hsplit := List.takeWhile_append_dropWhile (p := (· != '=')) (l := word.toList)
    rw [hword] at hsplit
    cases hrest : word.toList.dropWhile (· != '=') with
    | nil =>
        -- then the word would be the name alone
        rw [hrest, List.append_nil] at hsplit
        rw [← hsplit] at hmem
        exact absurd (ne_of_mem_settingNames hname '=' hmem) (by simp)
    | cons c value =>
        have hhead := List.head?_dropWhile_not (· != '=') word.toList
        rw [hrest] at hhead hsplit
        obtain rfl : c = '=' := by simpa using hhead
        refine ⟨name, hname, String.ofList value, String.toList_inj.mp ?_⟩
        rw [← hsplit]
        simp
  · rintro ⟨name, hname, value, rfl⟩
    refine ⟨⟨name, hname, ?_⟩, by simp⟩
    rw [String.toList_append, String.toList_append, List.append_assoc,
      List.takeWhile_append_of_pos (ne_of_mem_settingNames hname)]
    simp

theorem namesSetting_iff {word : String} : NamesSetting word ↔ opensSetting word = true := by
  constructor
  · rintro ⟨name, hname, hword | ⟨value, hword⟩⟩
    · exact (opens_alone_iff.mpr ⟨name, hname, hword⟩).1
    · exact (opens_own_iff.mpr ⟨name, hname, value, hword⟩).1
  · intro h
    cases hown : hasOwnValue word with
    | false =>
        obtain ⟨name, hname, hword⟩ := opens_alone_iff.mp ⟨h, hown⟩
        exact ⟨name, hname, Or.inl hword⟩
    | true =>
        obtain ⟨name, hname, hword⟩ := opens_own_iff.mp ⟨h, hown⟩
        exact ⟨name, hname, Or.inr hword⟩

/-! ## The scan -/

section

variable {text : α → String}

theorem leading_of_own {word : α} {name value : String} (words : List α) (hname : name ∈ settingNames)
    (hword : text word = "--" ++ name ++ "=" ++ value) :
    leading text false (word :: words) = word :: leading text false words := by
  obtain ⟨hopens, hown⟩ := opens_own_iff.mpr ⟨name, hname, value, hword⟩
  rw [leading, if_pos hopens, hown]
  rfl

theorem leading_of_alone {word : α} {name : String} (words : List α) (hname : name ∈ settingNames)
    (hword : text word = "--" ++ name) :
    leading text false (word :: words) = word :: leading text true words := by
  obtain ⟨hopens, hown⟩ := opens_alone_iff.mpr ⟨name, hname, hword⟩
  rw [leading, if_pos hopens, hown]
  rfl

theorem leading_of_other {word : α} (words : List α) (hword : ¬ NamesSetting (text word)) :
    leading text false (word :: words) = [] := by
  rw [namesSetting_iff] at hword
  rw [leading, if_neg hword]

/-- **Settings with their values are passed over**, and the scan goes on behind them. -/
theorem leading_append {words : List α} (h : SettingWords text words) (more : List α) :
    leading text false (words ++ more) = words ++ leading text false more := by
  induction h with
  | nil => rfl
  | own hname hword _ ih => rw [List.cons_append, leading_of_own _ hname hword, ih]; rfl
  | next hname hword _ ih =>
      rw [List.cons_append, List.cons_append, leading_of_alone _ hname hword, leading, ih]
      rfl

/-- **Where the scan ends**: behind settings with their values, in front of a word that names no setting or
    at the end of the words; or at their end with a value pending. -/
theorem leading_cases (text : α → String) : ∀ words : List α,
    (∃ front rest, words = front ++ rest ∧ leading text false words = front ∧
      SettingWords text front) ∨
    (leading text false words = words ∧ LacksValue text words)
  | [] => Or.inl ⟨[], [], rfl, rfl, .nil⟩
  | word :: words => by
      by_cases hnames : NamesSetting (text word)
      · obtain ⟨name, hname, hword | ⟨value, hword⟩⟩ := hnames
        · cases words with
          | nil =>
              right
              exact ⟨by rw [leading_of_alone _ hname hword]; rfl, [], word, name, rfl, .nil, hname, hword⟩
          | cons value words =>
              have hscan : leading text false (word :: value :: words)
                  = word :: value :: leading text false words := by
                rw [leading_of_alone _ hname hword, leading]
              rcases leading_cases text words with
                ⟨front, rest, rfl, hfront, hsettings⟩ | ⟨hall, front, last, name', rfl, hfront, hlast⟩
              · exact Or.inl ⟨word :: value :: front, rest, rfl, by rw [hscan, hfront],
                  .next hname hword hsettings⟩
              · exact Or.inr ⟨by rw [hscan, hall], word :: value :: front, last, name', rfl,
                  .next hname hword hfront, hlast⟩
        · have hscan := leading_of_own words hname hword
          rcases leading_cases text words with
            ⟨front, rest, rfl, hfront, hsettings⟩ | ⟨hall, front, last, name', rfl, hfront, hlast⟩
          · exact Or.inl ⟨word :: front, rest, rfl, by rw [hscan, hfront], .own hname hword hsettings⟩
          · exact Or.inr ⟨by rw [hscan, hall], word :: front, last, name', rfl,
              .own hname hword hfront, hlast⟩
      · exact Or.inl ⟨[], word :: words, rfl, leading_of_other words hnames, .nil⟩

end

/-! ## Both parts -/

/-- **A command line is split without loss.** The two parts, without the second program's name, make up the
    command line. Behind the name the first part is the longest beginning that consists of settings with
    their values; only where the command line ends with a setting that lacks its value that setting is taken
    too. The rest, from the first word on that is no setting where one could stand, is the command's. -/
theorem split_lossless (text : α → String) :
    (∀ args, (split text args).settings ++ ((split text args).command args).drop 1 = args) ∧
    ((split text []).settings = [] ∧ (split text []).command [] = []) ∧
    ∀ program words, ∃ front rest, words = front ++ rest ∧
      (split text (program :: words)).settings = program :: front ∧
      (split text (program :: words)).command (program :: words) = program :: rest ∧
      (SettingWords text front ∨ LacksValue text front ∧ rest = []) ∧
      (∀ ws, SettingWords text ws → ws <+: words → ws <+: front) ∧
      ∀ ws word more, SettingWords text ws → words = ws ++ word :: more →
        ¬ NamesSetting (text word) → front = ws ∧ rest = word :: more := by
  have hparts : ∀ program words, ∃ rest, words = leading text false words ++ rest ∧
      (split text (program :: words)).settings = program :: leading text false words ∧
      (split text (program :: words)).command (program :: words) = program :: rest ∧
      (SettingWords text (leading text false words) ∨
        LacksValue text (leading text false words) ∧ rest = []) := by
    intro program words
    have hcommand : (split text (program :: words)).command (program :: words)
        = program :: words.drop (leading text false words).length := by
      simp [split, Split.command]
    rcases leading_cases text words with ⟨front, rest, hwords, hfront, hsettings⟩ | ⟨hall, hlacks⟩
    · refine ⟨rest, by rw [hfront]; exact hwords, rfl, ?_, Or.inl (hfront ▸ hsettings)⟩
      rw [hcommand, hfront, hwords, List.drop_left]
    · refine ⟨[], by rw [hall, List.append_nil], rfl, ?_, Or.inr ⟨hall.symm ▸ hlacks, rfl⟩⟩
      rw [hcommand, hall, List.drop_length]
  refine ⟨?_, ⟨rfl, rfl⟩, ?_⟩
  · intro args
    cases args with
    | nil => rfl
    | cons program words =>
        obtain ⟨rest, hwords, hsettings, hcommand, -⟩ := hparts program words
        rw [hsettings, hcommand, List.cons_append]
        exact congrArg (program :: ·) hwords.symm
  · intro program words
    obtain ⟨rest, hwords, hsettings, hcommand, hcases⟩ := hparts program words
    refine ⟨_, rest, hwords, hsettings, hcommand, hcases, ?_, ?_⟩
    · rintro ws hws ⟨more, rfl⟩
      exact ⟨leading text false more, (leading_append hws more).symm⟩
    · rintro ws word more hws rfl hword
      have hfront : leading text false (ws ++ word :: more) = ws := by
        rw [leading_append hws, leading_of_other more hword, List.append_nil]
      refine ⟨hfront, ?_⟩
      rw [hfront] at hwords
      exact (List.append_cancel_left hwords).symm

/-- The name of a setting stands for a value, and the name of one behind the command is the command's. -/
theorem split_lossless_name_as_value :
    SettingWords id ["--max-cycles", "--jobs", "--log-format=json"] ∧ ¬ NamesSetting "apply" ∧
    (split id ["recast", "--max-cycles", "--jobs", "--log-format=json", "apply", "--jobs", "4"]).settings
      = ["recast", "--max-cycles", "--jobs", "--log-format=json"] ∧
    (split id ["recast", "--max-cycles", "--jobs", "--log-format=json", "apply", "--jobs", "4"]).command
      ["recast", "--max-cycles", "--jobs", "--log-format=json", "apply", "--jobs", "4"]
      = ["recast", "apply", "--jobs", "4"] := by
  have hcycles : "max-cycles" ∈ settingNames := by decide +kernel
  have hformat : "log-format" ∈ settingNames := by decide +kernel
  have hvalue : id "--log-format=json" = "--" ++ "log-format" ++ "=" ++ "json" := by decide +kernel
  have hsettings : SettingWords id ["--max-cycles", "--jobs", "--log-format=json"] :=
    .next hcycles (by decide +kernel) (.own hformat hvalue .nil)
  have happly : ¬ NamesSetting "apply" := by
    rw [namesSetting_iff]
    decide +kernel
  obtain ⟨front, rest, -, hfront, hrest, -, -, hsplit⟩ := (split_lossless id).2.2 "recast"
    ["--max-cycles", "--jobs", "--log-format=json", "apply", "--jobs", "4"]
  obtain ⟨rfl, rfl⟩ := hsplit _ "apply" ["--jobs", "4"] hsettings rfl happly
  exact ⟨hsettings, happly, hfront, hrest⟩

/-- At the end of a command line a setting is taken without its value. -/
example : split id ["recast", "--jobs"] = ⟨["recast", "--jobs"], 2⟩ := by decide +kernel

end JavaRefactor.CommandLine
