import TopDown.CommandLine.Arguments

namespace TopDown.CommandLine

inductive Flag where
  | chars
  | table
  | json
  | verbose
  | member (name : String)
  | joined (name : String)
  deriving DecidableEq, Repr

namespace Flag

def words : Flag → List String
  | chars => ["--chars"]
  | table => ["--table"]
  | json => ["--json"]
  | verbose => ["--verbose"]
  | member name => ["--grammar-member", name]
  | joined name => ["--grammar-member=" ++ name]

def name? : Flag → Option String
  | member name => some name
  | joined name => some name
  | _ => none

/-- A name that looks like an option is not taken for the value of one. -/
def Sound : Flag → Prop
  | member name => Word.of name = .argument
  | _ => True

def set (r : Reading) : Flag → Reading
  | chars => { r.close with chars := true }
  | table => { r.close with table := true }
  | json => { r.close with json := true }
  | verbose => { r.close with verbose := true }
  | member name => { r.close with member := some name }
  | joined name => { r.close with member := some name }

def On (r : Reading) : Flag → Prop
  | chars => r.chars = true
  | table => r.table = true
  | json => r.json = true
  | verbose => r.verbose = true
  | _ => False

end Flag

/-- A command line with its options before the path or after the last token. -/
structure Call where
  before : List Flag
  path : String
  tokens : List String
  after : List Flag

namespace Call

def flags (c : Call) : List Flag := c.before ++ c.after

def args (c : Call) : List String :=
  c.before.flatMap Flag.words ++ (c.path :: c.tokens ++ c.after.flatMap Flag.words)

def Plain (c : Call) : Prop := ∀ word ∈ c.path :: c.tokens, Word.of word = .argument

end Call

/-- The arguments say what the options and the words of a command line say. -/
structure Arguments.Follows (a : Arguments) (c : Call) : Prop where
  path_eq : a.path = c.path
  tokens_eq : a.tokens = c.tokens
  member_eq : a.member = (c.flags.filterMap Flag.name?).getLast?
  chars_iff : a.chars = true ↔ Flag.chars ∈ c.flags
  table_iff : a.table = true ↔ Flag.table ∈ c.flags
  json_iff : a.json = true ↔ Flag.json ∈ c.flags
  verbose_iff : a.verbose = true ↔ Flag.verbose ∈ c.flags
  whole_tokens : Flag.chars ∉ c.flags → a.input = c.tokens
  single_chars : Flag.chars ∈ c.flags → (∀ s ∈ a.input, s.length = 1) ∧
    a.input.flatMap String.toList = c.tokens.flatMap String.toList

section Words

variable {r : Reading} {word name : String} {words rest : List String} {flag : Flag}

theorem Word.of_member : Word.of "--grammar-member" = .option .member none := rfl

theorem Word.of_joined (name : String) :
    Word.of ("--grammar-member=" ++ name) = .option .member (some name) := by
  have chars : ("--grammar-member=" ++ name).toList =
      Setting.member.name ++ '=' :: name.toList := by
    rw [String.toList_append]
    rfl
  have lead : ∀ c ∈ Setting.member.name, decide (c ≠ '=') = true :=
    List.all_eq_true.mp (by decide)
  have only : Setting.candidates Setting.member.name = [.member] := by decide
  have split : Word.of ("--grammar-member=" ++ name) =
      Word.long (Setting.member.name ++ '=' :: name.toList) := by
    rw [Word.of, chars]
    rfl
  rw [split, Word.long, List.takeWhile_append_of_pos lead, List.dropWhile_append_of_pos lead]
  simp [only]

theorem Word.ne_dashes (plain : Word.of word = .argument) : word ≠ "--" := by
  rintro rfl
  cases plain

theorem Reading.readAll_argument (plain : Word.of word = .argument) :
    r.readAll (word :: rest) = (r.argument word).readAll rest := by
  rw [Reading.readAll.eq_def]
  simp only [Word.ne_dashes plain, if_false, plain]

theorem Flag.Sound.not_ambiguous (sound : flag.Sound) :
    ∀ word ∈ flag.words, Word.of word ≠ .ambiguous := by
  cases flag with
  | member name =>
    have plain : Word.of name = .argument := sound
    simp [words, plain, Word.of_member]
  | joined name => simp [words, Word.of_joined]
  | chars | table | json | verbose =>
    intro word member
    obtain rfl := List.mem_singleton.mp member
    decide

theorem Reading.readAll_flag (sound : flag.Sound) :
    r.readAll (flag.words ++ rest) = (flag.set r).readAll rest := by
  cases flag with
  | member name =>
    have plain : Word.of name = .argument := sound
    simp [Flag.words, Flag.set, Reading.readAll, Word.of_member, plain]
  | joined name =>
    have other : "--grammar-member=" ++ name ≠ "--" := by
      intro same
      have value := Word.of_joined name
      rw [same] at value
      cases value
    rw [Flag.words, List.singleton_append, Reading.readAll.eq_def]
    simp only [other, if_false, Word.of_joined, Reading.set, Flag.set]
  | chars | table | json | verbose => rfl

theorem Reading.readAll_unsound (unsound : ¬ flag.Sound) :
    r.readAll (flag.words ++ rest) = .error .usage := by
  cases flag with
  | member name =>
    have other : Word.of name ≠ .argument := unsound
    simp [Flag.words, Reading.readAll, Word.of_member, other]
  | _ => exact absurd True.intro unsound

theorem Reading.readAll_flags {flags : List Flag} (sound : ∀ flag ∈ flags, flag.Sound) :
    r.readAll (flags.flatMap Flag.words ++ rest) = (flags.foldl Flag.set r).readAll rest := by
  induction flags generalizing r with
  | nil => rfl
  | cons flag flags ih =>
    rw [List.flatMap_cons, List.append_assoc, readAll_flag (sound flag List.mem_cons_self)]
    exact ih fun other member => sound other (List.mem_cons_of_mem flag member)

theorem Reading.readAll_flags_unsound {flags : List Flag}
    (unsound : ¬ ∀ flag ∈ flags, flag.Sound) :
    r.readAll (flags.flatMap Flag.words ++ rest) = .error .usage := by
  induction flags generalizing r with
  | nil => exact absurd (fun _ member => absurd member List.not_mem_nil) unsound
  | cons flag flags ih =>
    rw [List.flatMap_cons, List.append_assoc]
    by_cases first : flag.Sound
    · rw [readAll_flag first]
      refine ih fun others => unsound ?_
      simpa [first] using others
    · exact readAll_unsound first

theorem Reading.readAll_words (plain : ∀ word ∈ words, Word.of word = .argument)
    (opened : r.closed = false) :
    r.readAll (words ++ rest) = { r with positional := r.positional ++ words }.readAll rest := by
  induction words generalizing r with
  | nil => simp
  | cons word words ih =>
    have next : r.argument word = { r with positional := r.positional ++ [word] } := by
      simp [argument, opened]
    obtain ⟨here, later⟩ := List.forall_mem_cons.mp plain
    rw [List.cons_append, readAll_argument here, next, ih later (by exact opened)]
    simp

end Words

section Settings

variable {r : Reading} {flags : List Flag} {switch : Flag}

theorem foldl_set_keeps {α : Type} (view : Reading → α)
    (keeps : ∀ (flag : Flag) r, view (flag.set r) = view r) :
    view (flags.foldl Flag.set r) = view r := by
  induction flags generalizing r with
  | nil => rfl
  | cons flag flags ih => rw [List.foldl_cons, ih, keeps]

theorem foldl_set_positional : (flags.foldl Flag.set r).positional = r.positional :=
  foldl_set_keeps Reading.positional fun flag _ => by cases flag <;> rfl

theorem foldl_set_surplus : (flags.foldl Flag.set r).surplus = r.surplus :=
  foldl_set_keeps Reading.surplus fun flag _ => by cases flag <;> rfl

theorem foldl_set_closed (none : r.positional = []) (opened : r.closed = false) :
    (flags.foldl Flag.set r).closed = false := by
  induction flags generalizing r with
  | nil => exact opened
  | cons flag flags ih =>
    refine ih ?_ ?_
    · cases flag <;> exact none
    · cases flag <;> simp [Flag.set, Reading.close, none]

theorem foldl_set_member : (flags.foldl Flag.set r).member =
    ((flags.filterMap Flag.name?).getLast?).or r.member := by
  induction flags generalizing r with
  | nil => rfl
  | cons flag flags ih =>
    rw [List.foldl_cons, ih]
    cases flag with
    | member name | joined name =>
      simp only [List.filterMap_cons, Flag.name?, List.getLast?_cons]
      cases (flags.filterMap Flag.name?).getLast? <;> rfl
    | chars | table | json | verbose => rfl

theorem on_foldl_set (plain : switch.name? = none) :
    switch.On (flags.foldl Flag.set r) ↔ switch.On r ∨ switch ∈ flags := by
  induction flags generalizing r with
  | nil => simp
  | cons flag flags ih =>
    have first : switch.On (flag.set r) ↔ switch.On r ∨ switch = flag := by
      cases switch <;> cases flag <;> simp_all [Flag.On, Flag.set, Flag.name?, Reading.close]
    rw [List.foldl_cons, ih, first, List.mem_cons, or_assoc]

end Settings

section Input

variable {a : Arguments}

theorem Arguments.input_of_chars (chars : a.chars = true) : (∀ s ∈ a.input, s.length = 1) ∧
    a.input.flatMap String.toList = a.tokens.flatMap String.toList := by
  rw [input, if_pos chars]
  constructor
  · intro s member
    obtain ⟨token, _, inside⟩ := List.mem_flatMap.mp member
    obtain ⟨c, _, rfl⟩ := List.mem_map.mp inside
    rw [String.length_ofList, List.length_singleton]
  · rw [List.flatMap_assoc]
    simp [List.flatMap_map]

end Input

namespace Call

variable {c : Call} {a : Arguments}

def reading (c : Call) : Reading :=
  let r := c.before.foldl Flag.set .start
  c.after.foldl Flag.set { r with positional := r.positional ++ c.path :: c.tokens }

theorem on_reading (switch : Flag) (plain : switch.name? = none) :
    switch.On c.reading ↔ switch ∈ c.flags := by
  have before : switch.On (c.before.foldl Flag.set .start) ↔
      switch.On .start ∨ switch ∈ c.before := on_foldl_set plain
  have off : ¬ switch.On .start := by cases switch <;> simp [Flag.On, Reading.start]
  -- The words between the options leave the switches alone.
  have kept : ∀ (r : Reading) words, switch.On { r with positional := words } ↔ switch.On r := by
    intro r words
    cases switch <;> rfl
  rw [reading, on_foldl_set plain, kept, before, or_iff_right off, flags, List.mem_append]

theorem reading_positional : c.reading.positional = c.path :: c.tokens := by
  simp [reading, foldl_set_positional, Reading.start]

theorem reading_surplus : c.reading.surplus = false := by
  simp [reading, foldl_set_surplus, Reading.start]

theorem readAll_front (plain : c.Plain) (sound : ∀ flag ∈ c.before, flag.Sound) :
    Reading.start.readAll c.args =
      { c.before.foldl Flag.set .start with
        positional := (c.before.foldl Flag.set .start).positional ++ c.path :: c.tokens }.readAll
          (c.after.flatMap Flag.words ++ []) := by
  rw [args, Reading.readAll_flags sound, Reading.readAll_words plain (foldl_set_closed rfl rfl),
    List.append_nil]

theorem readAll_args (plain : c.Plain) (sound : ∀ flag ∈ c.flags, flag.Sound) :
    Reading.start.readAll c.args = .ok c.reading := by
  obtain ⟨before, after⟩ := List.forall_mem_append.mp sound
  rw [readAll_front plain before, Reading.readAll_flags after]
  rfl

theorem readAll_args_unsound (plain : c.Plain) (unsound : ¬ ∀ flag ∈ c.flags, flag.Sound) :
    Reading.start.readAll c.args = .error .usage := by
  by_cases before : ∀ flag ∈ c.before, flag.Sound
  · have after : ¬ ∀ flag ∈ c.after, flag.Sound :=
      fun after => unsound (List.forall_mem_append.mpr ⟨before, after⟩)
    rw [readAll_front plain before, Reading.readAll_flags_unsound after]
  · rw [args, Reading.readAll_flags_unsound before]

theorem not_ambiguous (plain : c.Plain) (sound : ∀ flag ∈ c.flags, flag.Sound) :
    ¬ ∃ word ∈ c.args.takeWhile (· ≠ "--"), Word.of word = .ambiguous := by
  rintro ⟨word, member, ambiguous⟩
  have inside := (List.takeWhile_prefix _).subset member
  rw [args, List.mem_append, List.mem_append, List.mem_flatMap, List.mem_flatMap] at inside
  rcases inside with ⟨flag, before, named⟩ | words | ⟨flag, after, named⟩
  · exact (sound flag (List.mem_append_left _ before)).not_ambiguous word named ambiguous
  · rw [plain word words] at ambiguous
    cases ambiguous
  · exact (sound flag (List.mem_append_right _ after)).not_ambiguous word named ambiguous

theorem read_args (plain : c.Plain) (sound : ∀ flag ∈ c.flags, flag.Sound) :
    Arguments.read c.args = .ok ⟨c.path, c.tokens, c.reading.member, c.reading.chars,
      c.reading.table, c.reading.json, c.reading.verbose⟩ := by
  rw [Arguments.read, if_neg (not_ambiguous plain sound), readAll_args plain sound]
  simp only [reading_positional, reading_surplus]

theorem read_unsound (plain : c.Plain) (unsound : ¬ ∀ flag ∈ c.flags, flag.Sound) :
    Arguments.read c.args = .error .usage := by
  rw [Arguments.read, readAll_args_unsound plain unsound]
  split <;> rfl

theorem read_eq_usage_iff (plain : c.Plain) :
    Arguments.read c.args = .error .usage ↔ ¬ ∀ flag ∈ c.flags, flag.Sound := by
  by_cases sound : ∀ flag ∈ c.flags, flag.Sound
  · simpa [read_args plain sound] using sound
  · exact iff_of_true (read_unsound plain sound) sound

theorem exists_arguments_iff (plain : c.Plain) :
    (∃ a, Arguments.read c.args = .ok a) ↔ ∀ flag ∈ c.flags, flag.Sound := by
  by_cases sound : ∀ flag ∈ c.flags, flag.Sound
  · exact iff_of_true ⟨_, read_args plain sound⟩ sound
  · simp [read_unsound plain sound, sound]

theorem follows (plain : c.Plain) (answered : Arguments.read c.args = .ok a) : a.Follows c := by
  have sound := (exists_arguments_iff plain).mp ⟨a, answered⟩
  rw [read_args plain sound] at answered
  cases answered
  have chars : c.reading.chars = true ↔ Flag.chars ∈ c.flags := on_reading .chars rfl
  refine ⟨rfl, rfl, ?_, chars, on_reading .table rfl, on_reading .json rfl, on_reading .verbose rfl,
    fun off => if_neg (mt chars.mp off), fun on => Arguments.input_of_chars (chars.mpr on)⟩
  simp [reading, foldl_set_member, Reading.start, flags, List.filterMap_append,
    List.getLast?_append]

end Call

end TopDown.CommandLine
