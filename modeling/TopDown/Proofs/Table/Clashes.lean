import TopDown.Proofs.Table.Filling

namespace TopDown

namespace Draft

/-- The order of submissions: by the index of the production, then by the token. -/
def Before (e f : Submission) : Prop :=
  e.2.index < f.2.index ∨ (e.2.index = f.2.index ∧ e.1 < f.1)

theorem not_before_self (e : Submission) : ¬ Before e e := by
  intro before
  rcases before with less | ⟨_, less⟩
  · exact Int.lt_irrefl _ less
  · exact String.lt_irrefl _ less

theorem Before.not_before {e f : Submission} (before : Before e f) : ¬ Before f e := by
  intro back
  rcases before with less | ⟨same, less⟩
  · rcases back with more | ⟨same, _⟩ <;> omega
  · rcases back with more | ⟨_, more⟩
    · omega
    · exact String.lt_irrefl _ (String.lt_trans less more)

theorem before_iff_index {token : Symbol} {p q : Production} :
    Before (token, p) (token, q) ↔ p.index < q.index := by
  simp [Before]

variable {earlier rest submitted : List Submission} {name token : Symbol} {p q : Production}

theorem mem_front_iff {front back : List Submission} {e f : Submission}
    (sorted : (front ++ e :: back).Pairwise Before) (member : f ∈ front ++ e :: back) :
    f ∈ front ↔ Before f e := by
  obtain ⟨_, after, across⟩ := List.pairwise_append.mp sorted
  constructor
  · intro inside
    exact across f inside e List.mem_cons_self
  · intro before
    rcases List.mem_append.mp member with inside | there
    · exact inside
    · rcases List.mem_cons.mp there with rfl | later
      · exact absurd before (not_before_self f)
      · exact absurd before ((List.pairwise_cons.mp after).1 f later).not_before

theorem holder_lowest (sorted : submitted.Pairwise Before)
    (held : holder submitted name token = some p) (member : (token, q) ∈ submitted)
    (same : q.name = name) : p.index ≤ q.index := by
  unfold holder at held
  obtain ⟨⟨t, r⟩, found, rfl⟩ := Option.map_eq_some_iff.mp held
  obtain ⟨cell, front, back, rfl, none⟩ := List.find?_eq_some_iff_append.mp found
  simp only [Bool.and_eq_true, beq_iff_eq] at cell
  obtain ⟨_, rfl⟩ := cell
  rcases List.mem_append.mp member with inside | there
  · have other := none _ inside
    simp [same] at other
  · rcases List.mem_cons.mp there with this | later
    · cases this
      exact Int.le_refl _
    · have after := (List.pairwise_append.mp sorted).2.1
      have before := (List.pairwise_cons.mp after).1 _ later
      exact Int.le_of_lt (before_iff_index.mp before)

theorem mem_clash {e : Submission} {c : Conflict} :
    c ∈ clash earlier e ↔ ∃ held, holder earlier e.2.name e.1 = some held ∧ held ≠ e.2 ∧
      c = ⟨e.2.name, e.1, held, e.2⟩ := by
  unfold clash
  cases found : holder earlier e.2.name e.1 with
  | none => simp
  | some held =>
    by_cases same : held = e.2
    · simp [same]
    · simp [same]

theorem mem_clashes {c : Conflict} :
    c ∈ clashes earlier rest ↔
      ∃ front e back, rest = front ++ e :: back ∧ c ∈ clash (earlier ++ front) e := by
  constructor
  · intro member
    induction rest generalizing earlier with
    | nil => cases member
    | cons e rest ih =>
      rcases List.mem_append.mp member with here | later
      · exact ⟨[], e, rest, rfl, by simpa using here⟩
      · obtain ⟨front, f, back, rfl, inside⟩ := ih later
        exact ⟨e :: front, f, back, rfl, by simpa using inside⟩
  · intro ⟨front, e, back, whole, inside⟩
    subst whole
    rw [clashes_append, clashes]
    simp [inside]

end Draft

namespace Conflict

def Before (c d : Conflict) : Prop :=
  c.second.index < d.second.index ∨
    (c.second.index = d.second.index ∧ c.terminal < d.terminal)

/-- When `S` says which productions a token selects: a token with two productions of one name, the
first of which is the lowest that the token selects. -/
structure Of (S : Production → Symbol → Prop) (c : Conflict) : Prop where
  selects_first : S c.first c.terminal
  selects_second : S c.second c.terminal
  first_name : c.first.name = c.nonterminal
  second_name : c.second.name = c.nonterminal
  earlier : c.first.index < c.second.index
  lowest : ∀ r, S r c.terminal → r.name = c.nonterminal → c.first.index ≤ r.index

/-- The list of all conflicts in their order. There is one for each production and token for which
the token selects an earlier production of the name. -/
structure Lists (S : Production → Symbol → Prop) (found : List Conflict) : Prop where
  ascending : found.Pairwise Before
  mem_iff : ∀ c, c ∈ found ↔ c.Of S
  one_each : ∀ q token, S q token → (∃ p, S p token ∧ p.name = q.name ∧ p.index < q.index) →
    ∃! c, c ∈ found ∧ c.second = q ∧ c.terminal = token

end Conflict

namespace Draft

variable {earlier rest : List Submission}

theorem clashes_pairwise (sorted : rest.Pairwise Before) :
    (clashes earlier rest).Pairwise Conflict.Before := by
  induction rest generalizing earlier with
  | nil => exact List.Pairwise.nil
  | cons e rest ih =>
    obtain ⟨first, later⟩ := List.pairwise_cons.mp sorted
    rw [clashes, List.pairwise_append]
    refine ⟨?_, ih later, ?_⟩
    · unfold clash
      split
      · split
        · exact List.Pairwise.nil
        · exact List.pairwise_singleton _ _
      · exact List.Pairwise.nil
    · intro c here d there
      obtain ⟨_, _, _, rfl⟩ := mem_clash.mp here
      obtain ⟨front, f, back, rfl, inside⟩ := mem_clashes.mp there
      obtain ⟨_, _, _, rfl⟩ := mem_clash.mp inside
      exact first f (by simp)

theorem eq_of_index {submitted : List Submission} (sorted : submitted.Pairwise Before)
    {token : Symbol} {p q : Production} (first : (token, p) ∈ submitted)
    (second : (token, q) ∈ submitted) (same : p.index = q.index) : p = q := by
  obtain ⟨front, back, rfl⟩ := List.append_of_mem second
  obtain ⟨_, after, across⟩ := List.pairwise_append.mp sorted
  rcases List.mem_append.mp first with ahead | there
  · have less := before_iff_index.mp (across _ ahead _ List.mem_cons_self)
    omega
  · rcases List.mem_cons.mp there with this | later
    · exact congrArg Prod.snd this
    · have less := before_iff_index.mp ((List.pairwise_cons.mp after).1 _ later)
      omega

theorem of_mem_clashes {submitted : List Submission} (sorted : submitted.Pairwise Before)
    {c : Conflict} (member : c ∈ clashes [] submitted) :
    c.Of fun p token => (token, p) ∈ submitted := by
  obtain ⟨front, ⟨token, q⟩, back, rfl, inside⟩ := mem_clashes.mp member
  obtain ⟨held, found, _, rfl⟩ := mem_clash.mp inside
  rw [List.nil_append] at found
  obtain ⟨before, name⟩ := holder_eq_some found
  dsimp only at before name found
  have first : (token, held) ∈ front ++ (token, q) :: back := List.mem_append_left _ before
  have whole : holder (front ++ (token, q) :: back) q.name token = some held := by
    rw [holder_append, found, Option.some_or]
  exact {
    selects_first := first
    selects_second := by simp
    first_name := name
    second_name := rfl
    earlier := before_iff_index.mp ((mem_front_iff sorted first).mp before)
    lowest := fun _ there same => holder_lowest sorted whole there same }

theorem exists_mem_clashes {submitted : List Submission} (sorted : submitted.Pairwise Before)
    {token : Symbol} {p q : Production} (first : (token, p) ∈ submitted)
    (second : (token, q) ∈ submitted) (name : p.name = q.name) (less : p.index < q.index) :
    ∃ held, (⟨q.name, token, held, q⟩ : Conflict) ∈ clashes [] submitted := by
  obtain ⟨front, back, rfl⟩ := List.append_of_mem second
  have before : (token, p) ∈ front := (mem_front_iff sorted first).mpr (before_iff_index.mpr less)
  obtain ⟨held, found⟩ := holder_of_mem before
  dsimp only at found
  rw [name] at found
  obtain ⟨inside, _⟩ := holder_eq_some found
  have ahead := (mem_front_iff sorted (List.mem_append_left _ inside)).mp inside
  have other : held ≠ q := by
    intro same
    subst same
    exact not_before_self _ ahead
  exact ⟨held, mem_clashes.mpr ⟨front, _, back, rfl, mem_clash.mpr ⟨held, found, other, rfl⟩⟩⟩

theorem eq_of_second {submitted : List Submission} (sorted : submitted.Pairwise Before)
    {c d : Conflict} (hc : c.Of fun p token => (token, p) ∈ submitted)
    (hd : d.Of fun p token => (token, p) ∈ submitted) (second : c.second = d.second)
    (terminal : c.terminal = d.terminal) : c = d := by
  have name : c.nonterminal = d.nonterminal := by
    rw [← hc.second_name, ← hd.second_name, second]
  obtain ⟨nonterminal, token, first, q⟩ := c
  obtain ⟨nonterminal', token', first', q'⟩ := d
  dsimp only at second terminal name
  subst second terminal name
  have below := hc.lowest first' hd.selects_first hd.first_name
  have above := hd.lowest first hc.selects_first hc.first_name
  have same : first = first' :=
    eq_of_index sorted hc.selects_first hd.selects_first (Int.le_antisymm below above)
  rw [same]

theorem clashes_lists {submitted : List Submission} (sorted : submitted.Pairwise Before) :
    Conflict.Lists (fun p token => (token, p) ∈ submitted) (clashes [] submitted) where
  ascending := clashes_pairwise sorted
  mem_iff := by
    intro c
    constructor
    · exact of_mem_clashes sorted
    · intro of
      have name := of.first_name.trans of.second_name.symm
      obtain ⟨held, member⟩ :=
        exists_mem_clashes sorted of.selects_first of.selects_second name of.earlier
      rw [eq_of_second sorted of (of_mem_clashes sorted member) rfl rfl]
      exact member
  one_each := by
    intro q token selects ⟨p, selects', name, less⟩
    obtain ⟨held, member⟩ := exists_mem_clashes sorted selects' selects name less
    refine ⟨_, ⟨member, rfl, rfl⟩, ?_⟩
    intro c ⟨there, second, terminal⟩
    exact eq_of_second sorted (of_mem_clashes sorted there) (of_mem_clashes sorted member)
      second terminal

end Draft

end TopDown
