import SymbolicAutomata.Proofs.RegularRelations
/-!
# Relations of the same tuples

Two relations are alike if their tracks have the same widths and they hold the same tuples, wherever
the tracks are. A comparison answers whether they are, where the arities differ and where the widths
agree. It does not look at the widths: tracks of the same number are moved onto each other, and
where two widths differ the move ends the comparison.
-/
namespace SymbolicAutomata

open Manager Bdd Layout

namespace RegularRelation

variable {w : Workspace} {m : Manager} {r s : RegularRelation} {ds es : List Domain}
  {ps : List (Domain × Domain)}

/-- The tracks have the same widths, and the relations hold the same tuples. -/
structure Alike (m : Manager) (r s : RegularRelation) : Prop where
  widths : SameWidths r.tracks s.tracks
  tuples : ∀ n ws, r.Holds m n ws ↔ s.Holds m n ws

theorem sameWidths_iff : SameWidths ds es ↔ ds.map Domain.len = es.map Domain.len := by
  rw [← List.forall₂_eq_eq_eq, List.forall₂_map_left_iff, List.forall₂_map_right_iff]
  rfl

theorem alike_equivalence (m : Manager) : Equivalence (Alike m) where
  refl _ := ⟨sameWidths_iff.2 rfl, fun _ _ => Iff.rfl⟩
  symm h := ⟨h.widths.symm, fun n ws => (h.tuples n ws).symm⟩
  trans h h' := ⟨sameWidths_iff.2 ((sameWidths_iff.1 h.widths).trans (sameWidths_iff.1 h'.widths)),
    fun n ws => (h.tuples n ws).trans (h'.tuples n ws)⟩

theorem moves_error (hfst : EndBy (maxSymbolBits + 1) (ps.map Prod.fst))
    (hsnd : EndBy (maxSymbolBits + 1) (ps.map Prod.snd)) (hne : ∃ p ∈ ps, p.1.len ≠ p.2.len) :
    ∃ p ∈ ps, p.1.len ≠ p.2.len ∧ moves ps = .error (.trackWidths p.1 p.2) := by
  have hmax : maxSymbolBits = 65536 := rfl
  unfold moves
  generalize Renaming.identity = names
  induction ps generalizing names with
  | nil => simp at hne
  | cons p ps ih =>
    obtain ⟨d, e⟩ := p
    obtain ⟨hd, hfst⟩ := List.forall_mem_cons.1 hfst
    obtain ⟨he, hsnd⟩ := List.forall_mem_cons.1 hsnd
    by_cases hlen : d.len = e.len
    · have hrest : ∃ p ∈ ps, p.1.len ≠ p.2.len := by simpa [hlen] using hne
      obtain ⟨joined, hjoined, -⟩ := Domain.renamingTo_spec (d := d) (e := e)
        (Domain.stop_of_le (by dsimp only at hd; omega))
        (Domain.stop_of_le (by dsimp only at he; omega))
      obtain ⟨p, hp, hdiffer, herror⟩ := ih hfst hsnd hrest (names.extend joined)
      refine ⟨p, List.mem_cons_of_mem _ hp, hdiffer, ?_⟩
      rw [List.foldlM_cons, ← herror]
      simp only [hlen, hjoined, ne_eq, not_true_eq_false, ↓reduceIte]
      rfl
    · refine ⟨(d, e), List.mem_cons_self, hlen, ?_⟩
      rw [List.foldlM_cons]
      simp only [hlen, ne_eq, not_false_eq_true, ↓reduceIte]
      rfl

section Same

variable (hw : w.current.WellFormed) (hr : r.WellFormed w.current) (hs : s.WellFormed w.current)

theorem same_of_arity (h : r.arity ≠ s.arity) : r.same s w = .ok false w := by
  unfold same
  rw [if_pos h]
  rfl

include hr hs

/-- Tracks of the same number and of different widths are not moved onto each other. -/
theorem same_of_widths (harity : r.arity = s.arity) (h : ¬ SameWidths r.tracks s.tracks) :
    ∃ p ∈ s.tracks.zip r.tracks, p.1.len ≠ p.2.len ∧
      r.same s w = .error (.trackWidths p.1 p.2) w := by
  have hman : r.automaton.manager = s.automaton.manager :=
    hr.automaton.home.trans hs.automaton.home.symm
  have hlen : s.tracks.length = r.tracks.length := harity.symm
  have hne : ∃ p ∈ s.tracks.zip r.tracks, p.1.len ≠ p.2.len := by
    by_contra hall
    push Not at hall
    exact h (SameWidths.symm (List.forall₂_iff_zip.2 ⟨hlen, fun hp => hall _ hp⟩))
  have hfst : EndBy (maxSymbolBits + 1) ((s.tracks.zip r.tracks).map Prod.fst) := by
    rw [List.map_fst_zip hlen.le]
    exact hs.ends
  have hsnd : EndBy (maxSymbolBits + 1) ((s.tracks.zip r.tracks).map Prod.snd) := by
    rw [List.map_snd_zip hlen.ge]
    exact hr.ends
  obtain ⟨p, hp, hdiffer, herror⟩ := moves_error hfst hsnd hne
  have hmove : s.withTracks r.tracks w = .error (.trackWidths p.1 p.2) w := by
    have hcount : ¬ r.tracks.length ≠ s.arity := not_not.2 harity
    unfold withTracks
    rw [if_neg hcount, herror]
    rfl
  have halign : r.aligned s w = .error (.trackWidths p.1 p.2) w := by
    unfold aligned
    rw [if_neg (not_not.2 hman)]
    exact bind_of_error hmove
  refine ⟨p, hp, hdiffer, ?_⟩
  unfold same
  rw [if_neg (not_not.2 harity)]
  exact bind_of_error halign

include hw

theorem same_yields (hrc : r.Confined w.current) (hsc : s.Confined w.current)
    (hwidths : SameWidths r.tracks s.tracks)
    (hpair : r.automaton.Pairable s.automaton w.current) :
    Yields w (r.same s) fun x _ =>
      x = true ↔ ∀ n ws, r.Holds w.current n ws ↔ s.Holds w.current n ws := by
  have harity : r.arity = s.arity := hwidths.length_eq
  unfold same
  rw [if_neg (not_not.2 harity)]
  apply Runs.bind (aligned_yields hw hr hs hsc hwidths)
  rintro b w1 hl1 ⟨-, hfew, hwell, haligned⟩
  have hpair₁ : r.automaton.Pairable b w1.current :=
    hpair.mono (hr.automaton.deterministicCount_later hl1) hfew
  apply (SymbolicNfa.equivalent_yields hl1.after (hr.automaton.later hl1) hwell hpair₁).imp
  intro x w2 _ hx
  rw [hx, hr.automaton.language_later hl1, Set.ext_iff]
  change (∀ u, r.automaton.Accepts w.current u ↔ b.Accepts w1.current u) ↔ _
  constructor
  · intro hsame n ws
    constructor
    · rintro ⟨u, rfl, haccepts, rfl⟩
      exact (haligned u).1 ((hsame u).1 haccepts)
    · intro hheld
      have hheld' := hheld
      obtain ⟨v, hv, -, htuple⟩ := hheld'
      obtain ⟨u, hu, htuple'⟩ := exists_tuple hwidths hr.ends hs.ends hr.apart v
      obtain rfl : u.length = n := hu.trans hv
      obtain rfl : u.tuple r.tracks = ws := htuple'.trans htuple
      exact ⟨u, rfl, (hsame u).2 ((haligned u).2 hheld), rfl⟩
  · intro hsame u
    rw [haligned, ← hsame, holds_tuple_iff hr.automaton hw.canonical hrc]

/-- A comparison answers whether two relations are alike, which is an equivalence, if their arities
differ or their widths agree. Relations of one arity and of different widths it does not compare. -/
theorem same_iff_alike (hrc : r.Confined w.current) (hsc : s.Confined w.current) :
    (r.arity ≠ s.arity ∨
        SameWidths r.tracks s.tracks ∧ r.automaton.Pairable s.automaton w.current →
      Yields w (r.same s) fun x _ => x = true ↔ Alike w.current r s) ∧
    (r.arity = s.arity → ¬ SameWidths r.tracks s.tracks →
      ∃ p ∈ s.tracks.zip r.tracks, p.1.len ≠ p.2.len ∧
        r.same s w = .error (.trackWidths p.1 p.2) w) ∧
    Equivalence (Alike w.current) := by
  refine ⟨?_, same_of_widths hr hs, alike_equivalence _⟩
  rintro (harity | ⟨hwidths, hpair⟩)
  · refine yields_iff.2 ⟨false, w, same_of_arity harity, .refl hw, ?_⟩
    exact iff_of_false Bool.false_ne_true fun halike => harity halike.widths.length_eq
  · apply (same_yields hw hr hs hrc hsc hwidths hpair).imp
    intro x w1 _ hx
    rw [hx]
    exact ⟨fun htuples => ⟨hwidths, htuples⟩, Alike.tuples⟩

end Same

/-- On crossed tracks an automaton has other tuples, on its own tracks the same. -/
theorem same_iff_alike_ofBit : ∃ m a w, Manager.new 0 1 1 = .ok m ∧
    SymbolicNfa.ofBit 1 ⟨m, []⟩ = .ok a w ∧
    (∃ w', (bitPair 1 2 a).same (bitPair 2 1 a) w = .ok false w') ∧
    ∃ w', (bitPair 1 2 a).same (bitPair 1 2 a) w = .ok true w' := by
  obtain ⟨m, hm⟩ : ∃ m, Manager.new 0 1 1 = .ok m := ⟨_, rfl⟩
  obtain ⟨a, w, ha, hl, hcount, hwell, haccepts, hdepends⟩ := yields_iff.1
    (SymbolicNfa.ofBit_yields 1 (w := ⟨m, []⟩) (Manager.wellFormed_new hm) (by decide) (by decide))
  have hfirst : (bitPair 1 2 a).WellFormed w.current :=
    bitPair_wellFormed hwell (by decide) (by decide) (by decide)
  have hsecond : (bitPair 2 1 a).WellFormed w.current :=
    bitPair_wellFormed hwell (by decide) (by decide) (by decide)
  have hconfined₁ : (bitPair 1 2 a).Confined w.current :=
    confined_of_mem (by decide) List.mem_cons_self hdepends
  have hconfined₂ : (bitPair 2 1 a).Confined w.current :=
    confined_of_mem (by decide) (List.mem_cons_of_mem _ List.mem_cons_self) hdepends
  have hpair : a.Pairable a w.current := SymbolicNfa.pairable_of_le hwell hwell
    hl.after.canonical (by omega) (by omega)
  have hwidths : SameWidths (bitPair 1 2 a).tracks (bitPair 2 1 a).tracks :=
    .cons rfl (.cons rfl .nil)
  obtain ⟨x, w₁, hrun₁, -, hx⟩ := yields_iff.1
    ((same_iff_alike hl.after hfirst hsecond hconfined₁ hconfined₂).1 (.inr ⟨hwidths, hpair⟩))
  obtain ⟨y, w₂, hrun₂, -, hy⟩ := yields_iff.1
    ((same_iff_alike hl.after hfirst hfirst hconfined₁ hconfined₁).1
      (.inr ⟨sameWidths_iff.2 rfl, hpair⟩))
  have hnot : x = false := Bool.eq_false_of_not_eq_true fun htrue => by
    have hheld : (bitPair 1 2 a).Holds w.current 1 [[1], [0]] :=
      (bitPair_holds_iff haccepts).2 (by decide)
    rw [(hx.1 htrue).tuples, bitPair_crossed_holds_iff haccepts] at hheld
    exact absurd hheld (by decide)
  have hyes : y = true := hy.2 ((alike_equivalence _).refl _)
  exact ⟨m, a, w, hm, ha, ⟨w₁, hnot ▸ hrun₁⟩, w₂, hyes ▸ hrun₂⟩

/-- Two relations that hold nothing, on tracks of one and of two bits, are not compared. -/
theorem same_of_oneBit_twoBits : ∃ m a w, Manager.new 0 1 1 = .ok m ∧
    SymbolicNfa.empty ⟨m, []⟩ = .ok a w ∧
    (∀ d : Domain, d.base + d.len ≤ maxSymbolBits + 1 →
      WellFormed ⟨[d], a⟩ w.current ∧ Confined ⟨[d], a⟩ w.current) ∧
    a.Pairable a w.current ∧
    same ⟨[⟨1, 1, by decide⟩], a⟩ ⟨[⟨1, 2, by decide⟩], a⟩ w =
      .error (.trackWidths ⟨1, 2, by decide⟩ ⟨1, 1, by decide⟩) w := by
  obtain ⟨m, hm⟩ : ∃ m, Manager.new 0 1 1 = .ok m := ⟨_, rfl⟩
  obtain ⟨a, w, ha, hl, hcount, hflag, hshows⟩ := yields_iff.1
    (SymbolicNfa.ofCount_yields (w := ⟨m, []⟩) (Manager.wellFormed_new hm)
      (by decide : 0 < 2 ^ 32))
  have hwell : a.WellFormed w.current :=
    ⟨⟨_, hshows, bare_contained _⟩, SymbolicNfa.honest_of_unknown hflag⟩
  have hrelation (d : Domain) (hd : d.base + d.len ≤ maxSymbolBits + 1) :
      WellFormed ⟨[d], a⟩ w.current ∧ Confined ⟨[d], a⟩ w.current := by
    refine ⟨⟨hwell, List.pairwise_singleton .., List.forall_mem_singleton.2 hd⟩, ?_⟩
    rintro bit ⟨p, q, x, y, -, ⟨hp, -⟩, -⟩
    rw [hcount] at hp
    exact absurd hp (Nat.not_lt_zero p)
  refine ⟨m, a, w, hm, ha, hrelation, SymbolicNfa.pairable_of_le hwell hwell hl.after.canonical
    (by omega) (by omega), ?_⟩
  obtain ⟨p, hp, -, herror⟩ := same_of_widths (r := ⟨[⟨1, 1, by decide⟩], a⟩)
    (s := ⟨[⟨1, 2, by decide⟩], a⟩) (hrelation _ (by decide)).1 (hrelation _ (by decide)).1 rfl
    (by simp [sameWidths_iff])
  obtain rfl := List.mem_singleton.1 hp
  exact herror

end RegularRelation

end SymbolicAutomata
