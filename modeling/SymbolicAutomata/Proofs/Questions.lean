import SymbolicAutomata.Proofs.Belonging
import SymbolicAutomata.Proofs.Conversions
import SymbolicAutomata.Proofs.MatrixEdits
/-!
# Questions about an automaton

What is asked of an automaton is settled by its states and its edges, whatever holds them. An answer
has a meaning, and there is one answer with that meaning.
-/
namespace SymbolicAutomata

open Manager Bdd Layout

def Manager.numbers (m : Manager) (d : Domain) (f : Ref) : Set Nat :=
  {v | v < 2 ^ d.len ∧ m.eval f (d.write v fun _ => false) = true}

def ValueSet.numbers (s : ValueSet) (m : Manager) : Set Nat := m.numbers s.domain s.fn

def SymbolSet.numbers (on : SymbolSet) (m : Manager) : Set Nat := m.numbers alphabet on.fn

variable {w w' : Workspace} {m : Manager} {a b : Automaton} {s t : ValueSet} {on : SymbolSet}
  {d : Domain} {f : Ref} {v : Nat} {P L : Nat → Prop} {S : Set Nat}

theorem Manager.Denotes.mem_numbers (h : m.Denotes f fun x => P (d.read x)) :
    v ∈ m.numbers d f ↔ v < 2 ^ d.len ∧ P v := by
  apply and_congr_right
  intro hv
  rw [h.holds, Domain.read_write hv]

theorem Manager.numbers_later (hf : w.current.Has f) (hl : w.Leads w') :
    w'.current.numbers d f = w.current.numbers d f :=
  Set.ext fun v => and_congr_right fun _ => by rw [hl.eval hf]

theorem SymbolSet.Shows.numbers (h : on.Shows m L) : on.Shows m (· ∈ on.numbers m) :=
  h.congr fun _ hc => (h.denotes.mem_numbers.trans (and_iff_right hc)).symm

theorem SymbolSet.Shows.belongs (h : on.Shows m L) : on.Belongs m := ⟨h.home, h.denotes.has⟩

/-- The set is one of states of the automaton. -/
def Automaton.Names (a : Automaton) (m : Manager) (s : ValueSet) : Prop := ∃ S, a.Selects m s S

theorem Automaton.Names.later (h : a.Names w.current s) (hl : w.Leads w') :
    a.Names w'.current s := by
  obtain ⟨S, hS⟩ := h
  exact ⟨S, hS.later hl⟩

theorem Automaton.Names.of_size (h : a.Names m s) (hsize : a.size = b.size) : b.Names m s := by
  obtain ⟨S, hS⟩ := h
  exact ⟨S, hS.shows, hsize ▸ hS.states, hS.carried, hsize ▸ hS.len, hS.ends⟩

theorem Automaton.Names.selects (h : a.Names m s) : a.Selects m s (s.numbers m) := by
  obtain ⟨S, hS⟩ := h
  have heq : s.numbers m = S := Set.ext fun v =>
    hS.shows.denotes.mem_numbers.trans (and_iff_right_of_imp (hS.carried v))
  exact heq ▸ hS

theorem Automaton.Names.belongs (h : a.Names m s) : s.Belongs m := h.selects.shows.belongs

/-- What an automaton is, whatever holds it. Its states are `0, …, n - 1`. -/
structure Content where
  count : Nat
  nfa : NFA Nat Nat

/-- An automaton is held as a symbolic automaton or as a matrix of labels. -/
inductive Encoding
  | symbolic
  | matrix

/-- The automaton holds the content, and nothing is noted down of its determinism. -/
inductive Encoding.Holds (m : Manager) (X : Content) : Encoding → Automaton → Prop
  | symbolic {a : SymbolicNfa} (shows : a.Shows m X.nfa) (count : a.stateCount = X.count)
      (contained : Contained X.nfa X.count) (flag : a.determinism = .unknown) :
      Holds m X .symbolic (.symbolic a)
  | matrix {a : MatrixNfa} (displays : a.Displays m X.nfa) (count : a.stateCount = X.count)
      (ascending : a.Ascending) : Holds m X .matrix (.matrix a)

namespace Encoding

variable {e : Encoding} {X : Content}

theorem Holds.shows (h : e.Holds m X a) : a.Shows m X.nfa := by
  cases h with
  | symbolic shows => exact .symbolic shows
  | matrix displays => exact .matrix displays.toShows

theorem Holds.size (h : e.Holds m X a) : a.size = X.count := by
  cases h with
  | symbolic _ count => exact count
  | matrix _ count => exact count

theorem Holds.contained (h : e.Holds m X a) : Contained X.nfa a.size := by
  cases h with
  | symbolic _ count contained =>
    rw [← count] at contained
    exact contained
  | matrix displays => exact displays.contained

theorem Holds.later (h : e.Holds w.current X a) (hl : w.Leads w') : e.Holds w'.current X a := by
  cases h with
  | symbolic shows count contained flag => exact .symbolic (shows.later hl) count contained flag
  | matrix displays count ascending => exact .matrix (displays.later hl) count ascending

theorem Holds.unique (h : e.Holds m X a) (h' : e.Holds m X b) (hm : m.Canonical) : a = b := by
  cases h with
  | symbolic shows count _ flag =>
    cases h' with
    | symbolic shows' count' _ flag' =>
      rw [shows.unique shows' (count.trans count'.symm) (flag.trans flag'.symm) hm]
  | matrix displays count ascending =>
    cases h' with
    | matrix displays' count' ascending' =>
      rw [displays.unique displays' ascending ascending' (count.trans count'.symm) hm]

theorem Holds.answers (h : e.Holds w.current X a) (hw : w.current.WellFormed) :
    a.Answers False w X.nfa X.count := by
  have hcontained := h.contained
  cases h with
  | symbolic shows count => exact count ▸ Automaton.answers_symbolic shows hw
  | matrix displays count =>
    exact count ▸ Automaton.answers_matrix displays.toShows hcontained hw

end Encoding

inductive Question
  | count
  | states
  | ends (dir : Direction)
  | edge (p q : Nat)
  | labels (s t : ValueSet)
  | edges
  | step (dir : Direction) (s : ValueSet) (on : SymbolSet)
  | reach (dir : Direction) (s : ValueSet) (on : SymbolSet)
  | reachable
  | productive
  | live

inductive Answer
  | number (n : Nat)
  | set (s : ValueSet)
  | symbols (on : SymbolSet)
  | relation (r : Relation)

/-- What an answer says. -/
inductive Meaning
  | number (n : Nat)
  | set (d : Domain) (P : Nat → Prop)
  | symbols (L : Nat → Prop)
  | relation (ds : List Domain) (R : List Nat → Prop)

inductive Answer.Says (m : Manager) : Answer → Meaning → Prop
  | number {n : Nat} : Says m (.number n) (.number n)
  | set {s : ValueSet} {d : Domain} {P : Nat → Prop} (domain : s.domain = d) (shows : s.Shows m P) :
      Says m (.set s) (.set d P)
  | symbols {on : SymbolSet} {L : Nat → Prop} (shows : on.Shows m L) :
      Says m (.symbols on) (.symbols L)
  | relation {r : Relation} {ds : List Domain} {R : List Nat → Prop} (domains : r.domains = ds)
      (shows : r.Shows m R) : Says m (.relation r) (.relation ds R)

namespace Answer

variable {x y : Answer} {M : Meaning}

theorem Says.later (h : x.Says w.current M) (hl : w.Leads w') : x.Says w'.current M := by
  cases h with
  | number => exact .number
  | set domain shows => exact .set domain (shows.later hl)
  | symbols shows => exact .symbols (shows.later hl)
  | relation domains shows => exact .relation domains (shows.later hl)

theorem Says.unique (h : x.Says m M) (h' : y.Says m M) (hm : m.Canonical) : x = y := by
  cases h with
  | number =>
    cases h' with
    | number => rfl
  | set domain shows =>
    cases h' with
    | set domain' shows' => rw [shows.unique shows' (domain.trans domain'.symm) hm]
  | symbols shows =>
    cases h' with
    | symbols shows' => rw [shows.unique shows' hm]
  | relation domains shows =>
    cases h' with
    | relation domains' shows' => rw [shows.unique shows' (domains.trans domains'.symm) hm]

end Answer

namespace Question

def ask : Question → Automaton → BddM Answer
  | count, a => Answer.number <$> a.stateCount
  | states, a => Answer.set <$> a.states
  | ends dir, a => Answer.set <$> a.ends dir
  | edge p q, a => Answer.symbols <$> a.edge p q
  | labels s t, a => Answer.symbols <$> a.labels s t
  | edges, a => Answer.relation <$> a.edges
  | step dir s on, a => Answer.set <$> a.step dir s on
  | reach dir s on, a => Answer.set <$> a.reach dir s on
  | reachable, a => Answer.set <$> a.reachable
  | productive, a => Answer.set <$> a.productive
  | live, a => Answer.set <$> a.live

/-- The question is about states of the automaton, and about letters of its manager. -/
def Fair (m : Manager) (a : Automaton) : Question → Prop
  | edge p q => p < a.size ∧ q < a.size
  | labels s t => a.Names m s ∧ a.Names m t
  | step _ s on | reach _ s on => a.Names m s ∧ ∃ L, on.Shows m L
  | _ => True

/-- What the answer to the question says of an automaton. -/
def meaning (m : Manager) (X : Content) : Question → Meaning
  | count => .number X.count
  | states => .set (sourceBlock (bitsNeeded X.count)) (· < X.count)
  | ends dir => .set (sourceBlock (bitsNeeded X.count)) (· ∈ endsOf X.nfa dir)
  | edge p q => .symbols (q ∈ X.nfa.step p ·)
  | labels s t => .symbols fun c => ∃ p q, p ∈ s.numbers m ∧ q ∈ t.numbers m ∧ q ∈ X.nfa.step p c
  | edges => .relation (edgeBlocks (bitsNeeded X.count)) (Edges X.nfa)
  | step dir s on => .set (sourceBlock (bitsNeeded X.count)) fun q =>
      ∃ p, p ∈ s.numbers m ∧ Hop X.nfa (· ∈ on.numbers m) dir p q
  | reach dir s on => .set (sourceBlock (bitsNeeded X.count)) <|
      ValueSet.Closure (Hop X.nfa (· ∈ on.numbers m) dir) (· ∈ s.numbers m)
  | reachable => .set (sourceBlock (bitsNeeded X.count)) (Reachable X.nfa)
  | productive => .set (sourceBlock (bitsNeeded X.count)) (Productive X.nfa)
  | live => .set (sourceBlock (bitsNeeded X.count)) (Live X.nfa)

variable {e : Encoding} {X : Content} {q : Question}

theorem Fair.later (h : q.Fair w.current a) (hl : w.Leads w') : q.Fair w'.current a := by
  have hletters : ∀ {on : SymbolSet}, (∃ L, on.Shows w.current L) →
      ∃ L, on.Shows w'.current L := fun ⟨L, hL⟩ => ⟨L, hL.later hl⟩
  cases q with
  | edge p q => exact h
  | labels s t => exact ⟨h.1.later hl, h.2.later hl⟩
  | step dir s on => exact ⟨h.1.later hl, hletters h.2⟩
  | reach dir s on => exact ⟨h.1.later hl, hletters h.2⟩
  | _ => trivial

theorem Fair.of_size (h : q.Fair m a) (hsize : a.size = b.size) : q.Fair m b := by
  cases q with
  | edge p q => exact ⟨hsize ▸ h.1, hsize ▸ h.2⟩
  | labels s t => exact ⟨h.1.of_size hsize, h.2.of_size hsize⟩
  | step dir s on => exact ⟨h.1.of_size hsize, h.2⟩
  | reach dir s on => exact ⟨h.1.of_size hsize, h.2⟩
  | _ => trivial

/-- What a question asks does not change for the rest of the session. -/
theorem Fair.meaning_later (h : q.Fair w.current a) (hl : w.Leads w') :
    q.meaning w'.current X = q.meaning w.current X := by
  have hset : ∀ {s : ValueSet}, a.Names w.current s → s.numbers w'.current = s.numbers w.current :=
    fun hs => numbers_later hs.belongs.has hl
  have hletters : ∀ {on : SymbolSet}, (∃ L, on.Shows w.current L) →
      on.numbers w'.current = on.numbers w.current := fun ⟨_, hon⟩ =>
    numbers_later hon.denotes.has hl
  cases q with
  | labels s t => simp only [meaning, hset h.1, hset h.2]
  | step dir s on => simp only [meaning, hset h.1, hletters h.2]
  | reach dir s on => simp only [meaning, hset h.1, hletters h.2]
  | _ => rfl

/-- What shows an automaton answers every fair question about it but that for the edge relation. -/
theorem ask_shown_yields {g : NFA Nat Nat} (h : a.Shows w.current g) (hg : Contained g a.size)
    (hw : w.current.WellFormed) (hq : q.Fair w.current a) (hedges : q ≠ edges) :
    Yields w (q.ask a) fun x m => x.Says m (q.meaning w.current ⟨a.size, g⟩) := by
  cases q with
  | count => exact (h.count_yields hw).map fun n w1 _ hn => hn ▸ .number
  | states => exact (h.states_yields hw).map fun s w1 _ hs => .set hs.1 hs.2
  | ends dir => exact (h.ends_yields hw hg).map fun s w1 _ hs => .set hs.1 hs.2
  | edge p q => exact (h.edge_yields hw hg hq.1 hq.2).map fun on w1 _ hon => .symbols hon
  | labels s t =>
    exact (h.labels_yields hw hg (hq.1.selects.movable h) (hq.2.selects.movable h)).map
      fun on w1 _ hon => .symbols hon
  | edges => exact absurd rfl hedges
  | step dir s on =>
    obtain ⟨hs, L, hon⟩ := hq
    exact (h.step_yields hw hg (hs.selects.movable h) hon.numbers.denotes).map
      fun u w1 _ hu => .set hu.1 hu.2
  | reach dir s on =>
    obtain ⟨hs, L, hon⟩ := hq
    exact (h.reach_yields hw hg (hs.selects.movable h) hon.numbers.denotes).map
      fun u w1 _ hu => .set hu.1 hu.2
  | reachable => exact (h.reachable_yields hw hg).map fun u w1 _ hu => .set hu.1 hu.2
  | productive => exact (h.productive_yields hw hg).map fun u w1 _ hu => .set hu.1 hu.2
  | live => exact (h.live_yields hw hg).map fun u w1 _ hu => .set hu.1 hu.2

theorem ask_answered_yields {g : NFA Nat Nat} (h : a.Shows w.current g) (hg : Contained g a.size)
    (hw : w.current.WellFormed) (hanswers : a.Answers False w g a.size)
    (hq : q.Fair w.current a) :
    Yields w (q.ask a) fun x m => x.Says m (q.meaning w.current ⟨a.size, g⟩) := by
  by_cases hedges : q = edges
  · subst hedges
    exact hanswers.edges.map fun r w1 _ hr => .relation hr.1 hr.2
  · exact ask_shown_yields h hg hw hq hedges

/-- An automaton answers every fair question about its content. -/
theorem ask_yields (h : e.Holds w.current X a) (hw : w.current.WellFormed)
    (hq : q.Fair w.current a) :
    Yields w (q.ask a) fun x m => x.Says m (q.meaning w.current X) := by
  have hanswered := ask_answered_yields h.shows h.contained hw (h.size ▸ h.answers hw) hq
  rwa [h.size] at hanswered

end Question

end SymbolicAutomata
