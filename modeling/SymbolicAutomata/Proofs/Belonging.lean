import SymbolicAutomata.Proofs.Closures
/-!
# Values of a manager

A set, a symbol set or a relation belongs to a manager if it is at home there and its function is
one of the manager's. Operations on such values, with any domains and numbers, return such values or
fail, and either way they leave the diagrams as they should be.
-/
namespace SymbolicAutomata

open Manager

/-- The manager is the home of the value and has its function. -/
structure Manager.Owns (m : Manager) (home : Nat) (f : Ref) : Prop where
  home : home = m.id
  has : m.Has f

theorem Manager.Owns.later {w w' : Workspace} {home : Nat} {f : Ref}
    (h : w.current.Owns home f) (hl : w.Leads w') : w'.current.Owns home f :=
  ⟨h.home.trans hl.grows.id.symm, hl.grows.has h.has⟩

abbrev ValueSet.Belongs (s : ValueSet) (m : Manager) : Prop := m.Owns s.manager s.fn

abbrev SymbolSet.Belongs (s : SymbolSet) (m : Manager) : Prop := m.Owns s.manager s.fn

abbrev Relation.Belongs (r : Relation) (m : Manager) : Prop := m.Owns r.manager r.fn

namespace Bdd

variable {α β : Type} {w : Workspace} {f g h : Ref} {d : Domain} {S : β → Manager → Prop}

/-- The computation returns something that satisfies `Q`, or fails. Either way it leads on. -/
abbrev Keeps (w : Workspace) (x : BddM α) (Q : α → Manager → Prop) : Prop := Runs True w x Q

theorem Runs.keeps {p : Prop} {x : BddM α} {Q : α → Manager → Prop} (h : Runs p w x Q) :
    Keeps w x Q := h.mono (fun _ => trivial) fun _ _ _ hQ => hQ

theorem Runs.lift_keeps {r : Except Failure α} {y : α → BddM β} (hw : w.current.WellFormed)
    (hy : ∀ a, r = .ok a → Keeps w (y a) S) : Keeps w (liftM r >>= y) S :=
  .lift_cases hw (fun _ _ => trivial) hy

theorem Runs.ask_keeps {r : Manager → Except Failure α} {y : α → BddM β}
    (hw : w.current.WellFormed) (hy : ∀ a, r w.current = .ok a → Keeps w (y a) S) :
    Keeps w (Bdd.ask r >>= y) S := by
  cases hr : r w.current with
  | ok a => exact .ask_bind hr (hy a hr)
  | error e =>
    have hrun : (Bdd.ask r >>= y) w = .error e w := by
      change EStateM.bind (Bdd.ask r) y w = _
      unfold EStateM.bind Bdd.ask
      rw [hr]
    unfold Keeps Runs
    rw [hrun]
    exact ⟨trivial, .refl hw⟩

theorem Runs.throw_keeps {e : Failure} {y : α → BddM β} (hw : w.current.WellFormed) :
    Keeps w (MonadExcept.throw e >>= y) S :=
  .bind (Q := fun _ _ => False) (Runs.throw hw trivial) fun _ _ _ hfalse => hfalse.elim

theorem Runs.check_keeps {c : Prop} [Decidable c] {e : Failure} {y : α → BddM β} {x : BddM β}
    (hw : w.current.WellFormed) (hx : ¬ c → Keeps w x S) :
    Keeps w (if c then MonadExcept.throw e >>= y else x) S :=
  .check hw (fun _ => trivial) hx

/-- What holds before a loop and is kept by each round holds after it. -/
theorem foldlM_keeps {next : β → α → BddM β} {xs : List α} {b : β} (hw : w.current.WellFormed)
    (hb : S b w.current)
    (hnext : ∀ x ∈ xs, ∀ w' b, w.Leads w' → S b w'.current → Keeps w' (next b x) S) :
    Keeps w (xs.foldlM next b) S := by
  refine foldlM_runs (I := fun _ => S) hw hb fun before x after hsplit => hnext x ?_
  simp [← hsplit]

section Connectives

variable (hw : w.current.WellFormed) (hf : w.current.Has f) (hg : w.current.Has g)

include hw hf hg

theorem ite_keeps (hh : w.current.Has h) : Keeps w (ite f g h) fun r m => m.Has r :=
  (ite_yields hw (denotes_eval hf) (denotes_eval hg) (denotes_eval hh)).keeps.imp
    fun _ _ _ hr => hr.has

theorem conj_keeps : Keeps w (conj f g) fun r m => m.Has r :=
  ite_keeps hw hf hg hw.canonical.has_zero

theorem disj_keeps : Keeps w (disj f g) fun r m => m.Has r :=
  ite_keeps hw hf hw.canonical.has_one hg

theorem diff_keeps : Keeps w (diff f g) fun r m => m.Has r :=
  ite_keeps hw hg hw.canonical.has_zero hf

theorem implies_keeps : Keeps w (implies f g) fun _ _ => True :=
  .bind (diff_keeps hw hf hg) fun _ _ hl _ => Runs.pure hl.after trivial

theorem joinExist_keeps : Keeps w (joinExist f g d) fun r m => m.Has r :=
  .bind (conj_keeps hw hf hg) fun _ _ hl hr => exist_keeps hl.after hr

end Connectives

theorem literal_keeps {v : Nat} (hw : w.current.WellFormed) (hv : 0 < v) :
    Keeps w (literal v) fun r m => m.Has r :=
  (literal_yields hw hv).keeps.imp fun _ _ _ hr => hr.has

theorem rename_keeps {names : Renaming} (hnames : ∀ v, 0 < v → 0 < names.apply v)
    (hw : w.current.WellFormed) (hf : w.current.Has f) :
    Keeps w (rename f names) fun r m => m.Has r :=
  (rename_yields hnames hw (denotes_eval hf)).keeps.imp fun _ _ _ hr => hr.has

theorem conjAll_keeps {fs : List Ref} (hw : w.current.WellFormed)
    (hfs : ∀ f ∈ fs, w.current.Has f) : Keeps w (conjAll fs) fun r m => m.Has r := by
  apply foldlM_keeps hw hw.canonical.has_one
  intro f hf w1 r hl1 hr
  exact conj_keeps hl1.after hr (hl1.grows.has (hfs f hf))

theorem disjMap_keeps {make : α → BddM Ref} {xs : List α} (hw : w.current.WellFormed)
    (hmake : ∀ x ∈ xs, ∀ w', w.Leads w' → Keeps w' (make x) fun r m => m.Has r) :
    Keeps w (disjMap make xs) fun r m => m.Has r := by
  apply foldlM_keeps hw hw.canonical.has_zero
  intro x hx w1 r hl1 hr
  apply Runs.bind (hmake x hx w1 hl1)
  intro s w2 hl2 hs
  exact disj_keeps hl2.after (hl2.grows.has hr) hs

end Bdd

namespace Domain

variable {d e : Domain} {names : Renaming} {vs : List Nat}

theorem vars_eq_ok_iff : d.vars = .ok vs ↔
    d.base + d.len < Nat.pow 2 32 ∧ vs = List.range' d.base d.len := by
  unfold vars stop fits
  split_ifs with h
  · simp [h, bind, Except.bind, pure, Except.pure, eq_comm]
  · simp [h, bind, Except.bind]

theorem joins_of_renamingTo (h : d.renamingTo e = .ok names) : d.Joins e names := by
  obtain ⟨n, hd, hrest⟩ := exists_of_bind_eq_ok h
  obtain ⟨k, he, -⟩ := exists_of_bind_eq_ok hrest
  obtain ⟨names', heq, hjoins⟩ := renamingTo_spec hd he
  rw [h] at heq
  cases heq
  exact hjoins

end Domain

namespace Bdd

variable {α β : Type} {w : Workspace} {d : Domain} {v : Nat}

theorem forall₂_of_mapM {f : α → Except Failure β} {xs : List α} {ys : List β}
    (h : xs.mapM f = .ok ys) : List.Forall₂ (fun x y => f x = .ok y) xs ys := by
  induction xs generalizing ys with
  | nil =>
    obtain rfl : [] = ys := Except.ok.inj h
    exact .nil
  | cons x xs ih =>
    rw [List.mapM_cons] at h
    obtain ⟨y, hx, h⟩ := exists_of_bind_eq_ok h
    obtain ⟨zs, hrest, h⟩ := exists_of_bind_eq_ok h
    obtain rfl : y :: zs = ys := Except.ok.inj h
    exact .cons hx (ih hrest)

theorem exists_of_mapM_error {f : α → Except Failure β} {xs : List α} {e : Failure}
    (h : xs.mapM f = .error e) : ∃ x ∈ xs, f x = .error e := by
  induction xs with
  | nil => cases h
  | cons x xs ih =>
    rw [List.mapM_cons] at h
    cases hx : f x with
    | error e' =>
      rw [hx] at h
      cases h
      exact ⟨x, List.mem_cons_self, hx⟩
    | ok y =>
      cases hxs : xs.mapM f with
      | error e' =>
        rw [hx, hxs] at h
        cases h
        obtain ⟨z, hz, hf⟩ := ih hxs
        exact ⟨z, List.mem_cons_of_mem x hz, hf⟩
      | ok ys =>
        rw [hx, hxs] at h
        cases h

/-- The literal is that of the variable, with either sign. -/
def Literal.Of (v : Nat) (l : Int) : Prop :=
  l = signedWord v ∨ negateWord (signedWord v) = .ok l

theorem Literal.Of.natAbs_eq {l : Int} (h : Literal.Of v l) : l.natAbs = (signedWord v).natAbs := by
  rcases h with rfl | h
  · rfl
  · unfold negateWord at h
    split_ifs at h
    cases h
    exact Int.natAbs_neg _

theorem natAbs_signedWord (hv : v < Nat.pow 2 32) :
    (signedWord v).natAbs = if v < Nat.pow 2 31 then v else Nat.pow 2 32 - v := by
  unfold signedWord
  split_ifs
  · rfl
  · omega

/-- There is no literal of variable `2 ^ 31` but the least word. -/
theorem Literal.Of.eq_least {l : Int} (h : Literal.Of (Nat.pow 2 31) l) : l = leastWord := by
  rcases h with rfl | h
  · rfl
  · simp [negateWord, signedWord, leastWord] at h

/-- A domain that reaches from below `2 ^ 31` to above it has that variable. -/
theorem natAbs_signedWord_inj {u : Nat} (hend : d.base + d.len < Nat.pow 2 32)
    (hmid : Nat.pow 2 31 ∉ List.range' d.base d.len) (hv : v ∈ List.range' d.base d.len)
    (hu : u ∈ List.range' d.base d.len)
    (heq : (signedWord v).natAbs = (signedWord u).natAbs) : v = u := by
  rw [List.mem_range'_1] at hmid hv hu
  rw [natAbs_signedWord (by omega), natAbs_signedWord (by omega)] at heq
  split_ifs at heq <;> omega

theorem natAbs_of_literals {ls : List Int}
    (hls : List.Forall₂ Literal.Of (List.range' d.base d.len) ls) :
    ls.map Int.natAbs = (List.range' d.base d.len).map fun v => (signedWord v).natAbs := by
  symm
  rw [← List.forall₂_eq_eq_eq, List.forall₂_map_left_iff, List.forall₂_map_right_iff]
  exact hls.imp fun v l hl => hl.natAbs_eq.symm

theorem distinct_of_literals {ls : List Int} (hend : d.base + d.len < Nat.pow 2 32)
    (hls : List.Forall₂ Literal.Of (List.range' d.base d.len) ls) :
    leastWord ∈ ls ∨ (ls.map Int.natAbs).Nodup := by
  by_cases hmid : Nat.pow 2 31 ∈ List.range' d.base d.len
  · obtain ⟨l, hl, hof⟩ := exists_right_of_forall₂ hls _ hmid
    exact .inl (hof.eq_least ▸ hl)
  · rw [natAbs_of_literals hls]
    refine .inr (List.Nodup.map_on ?_ List.nodup_range')
    exact fun v hv u hu heq => natAbs_signedWord_inj hend hmid hv hu heq

/-- A cube over the variables of a domain is made, unless one of the literals is the least word. -/
theorem cube_yieldsIff {ls : List Int} (hw : w.current.WellFormed)
    (hend : d.base + d.len < Nat.pow 2 32)
    (hls : List.Forall₂ Literal.Of (List.range' d.base d.len) ls) :
    YieldsIff (leastWord ∉ ls) w (cube ls) fun r m =>
      m.Denotes r fun s => ∀ l ∈ ls, Literal.Holds s l := by
  have hbase := d.base_ne_zero
  by_cases hleast : leastWord ∈ ls
  · unfold cube
    rw [if_pos (by simpa using hleast)]
    exact Runs.throw hw (not_not_intro hleast)
  · have hdistinct := (distinct_of_literals hend hls).resolve_left hleast
    refine (cube_yields hw hleast ?_ hdistinct).yieldsIff hleast
    intro l hl
    obtain ⟨v, hv, hof⟩ := exists_left_of_forall₂ hls l hl
    have hvar := List.mem_range'_1.1 hv
    have habs := hof.natAbs_eq
    rw [natAbs_signedWord (by omega)] at habs
    split_ifs at habs <;> omega

theorem cube_keeps {ls : List Int} (hw : w.current.WellFormed)
    (hend : d.base + d.len < Nat.pow 2 32)
    (hls : List.Forall₂ Literal.Of (List.range' d.base d.len) ls) :
    Keeps w (cube ls) fun r m => m.Has r :=
  (cube_yieldsIff hw hend hls).keeps.imp fun _ _ _ hr => hr.2.has

theorem literals_of_value {ls : List Int}
    (h : valueLiterals v (List.range' d.base d.len) = .ok ls) :
    List.Forall₂ Literal.Of (List.range' d.base d.len) ls := by
  have hpairs := forall₂_of_mapM h
  rw [← List.zipIdx_map_fst 0 (List.range' d.base d.len), List.forall₂_map_left_iff]
  apply hpairs.imp
  rintro ⟨x, i⟩ l hl
  obtain ⟨b, -, hl⟩ := exists_of_bind_eq_ok hl
  cases b with
  | true => exact .inl (Except.ok.inj hl).symm
  | false => exact .inr hl

theorem wordBit_of_eq_ok {i : Nat} {b : Bool} (h : wordBit v i = .ok b) :
    i < 64 ∧ b = v.testBit i := by
  unfold wordBit at h
  split_ifs at h with hi
  exact ⟨hi, (Except.ok.inj h).symm⟩

/-- Where a number can be written, each variable has a bit and the literal of that bit. -/
theorem literal_of_value {ls : List Int} {i : Nat}
    (h : valueLiterals v (List.range' d.base d.len) = .ok ls) (hi : i < d.len) :
    i < 64 ∧ ∃ l ∈ ls, (if v.testBit i then .ok (signedWord (d.base + i))
      else negateWord (signedWord (d.base + i)) : Except Failure Int) = .ok l := by
  have hmem : (d.base + i, i) ∈ (List.range' d.base d.len).zipIdx := by
    rw [List.mem_zipIdx_iff_getElem?, List.getElem?_range' hi, Nat.one_mul]
  obtain ⟨l, hl, hmade⟩ := exists_right_of_forall₂ (forall₂_of_mapM h) _ hmem
  obtain ⟨b, hbit, hmade⟩ := exists_of_bind_eq_ok hmade
  obtain ⟨hi, rfl⟩ := wordBit_of_eq_ok hbit
  exact ⟨hi, l, hl, hmade⟩

/-- Whether a number can be written on a domain does not depend on the diagrams, and what is written
does not either. -/
theorem value_settled (d : Domain) (v : Nat) : ∃ (C : Prop) (F : Assignment → Prop),
    ∀ w : Workspace, w.current.WellFormed → YieldsIff C w (value d v) fun r m => m.Denotes r F := by
  have hfails : (∀ w : Workspace, w.current.WellFormed →
      Runs True w (value d v) fun _ _ => False) → ∃ (C : Prop) (F : Assignment → Prop),
        ∀ w : Workspace, w.current.WellFormed →
          YieldsIff C w (value d v) fun r m => m.Denotes r F := fun h =>
    ⟨False, fun _ => False, fun w hw => (h w hw).mono (fun _ => id) fun _ _ _ hf => hf.elim⟩
  by_cases hbig : d.len < 64 ∧ v >>> d.len ≠ 0
  · refine hfails fun w hw => ?_
    unfold value
    rw [if_pos hbig]
    exact Runs.throw_keeps hw
  cases hvars : d.vars with
  | error e =>
    refine hfails fun w hw => ?_
    unfold value
    rw [if_neg hbig]
    exact Runs.lift_error hw hvars trivial
  | ok vs =>
    obtain ⟨hend, rfl⟩ := Domain.vars_eq_ok_iff.1 hvars
    cases hls : valueLiterals v (List.range' d.base d.len) with
    | error e =>
      refine hfails fun w hw => ?_
      unfold value
      rw [if_neg hbig]
      exact Runs.lift_bind hvars (Runs.lift_error hw hls trivial)
    | ok ls =>
      refine ⟨leastWord ∉ ls, fun s => ∀ l ∈ ls, Literal.Holds s l, fun w hw => ?_⟩
      unfold value
      rw [if_neg hbig]
      exact Runs.lift_bind hvars (Runs.lift_bind hls
        (cube_yieldsIff hw hend (literals_of_value hls)))

theorem value_keeps (hw : w.current.WellFormed) : Keeps w (value d v) fun r m => m.Has r := by
  obtain ⟨C, F, hvalue⟩ := value_settled d v
  exact (hvalue w hw).keeps.imp fun _ _ _ hr => hr.2.has

theorem fill_keeps {b : Bool} (hw : w.current.WellFormed) :
    Keeps w (fill d b) fun r m => m.Has r := by
  apply Runs.lift_keeps hw
  intro vs hvs
  obtain ⟨hend, rfl⟩ := Domain.vars_eq_ok_iff.1 hvs
  apply Runs.lift_keeps hw
  intro ls hls
  refine cube_keeps hw hend ((forall₂_of_mapM hls).imp fun x l hl => ?_)
  cases b with
  | true => exact .inl (Except.ok.inj hl).symm
  | false => exact .inr hl

theorem bit_pos {i : Nat} (h : d.bit i = .ok v) : 0 < v := by
  have := d.base_ne_zero
  unfold Domain.bit at h
  split_ifs at h
  have := (fits_eq_ok_iff.1 h).2
  omega

theorem atMost_keeps {i bound : Nat} (hw : w.current.WellFormed) :
    Keeps w (atMost d i bound) fun r m => m.Has r := by
  induction i generalizing w bound with
  | zero => exact Runs.pure hw hw.canonical.has_one
  | succ i ih =>
    apply Runs.lift_keeps hw
    intro v hv
    by_cases hout : i + 1 < 64 ∧ bound >>> (i + 1) ≠ 0
    · rw [if_pos hout]
      exact Runs.pure hw hw.canonical.has_one
    · rw [if_neg hout]
      apply Runs.lift_keeps hw
      intro mask _
      apply Runs.bind (ih hw)
      intro rest w1 hl1 hrest
      apply Runs.bind (literal_keeps hl1.after (bit_pos hv))
      intro x w2 hl2 hx
      have hrest := hl2.grows.has hrest
      have hm := hl2.after.canonical
      split_ifs
      · exact ite_keeps hl2.after hx hrest hm.has_one
      · exact ite_keeps hl2.after hx hm.has_zero hrest

theorem atLeast_keeps {i bound : Nat} (hw : w.current.WellFormed) :
    Keeps w (atLeast d i bound) fun r m => m.Has r := by
  induction i generalizing w bound with
  | zero =>
    refine Runs.pure hw ?_
    split_ifs
    · exact hw.canonical.has_one
    · exact hw.canonical.has_zero
  | succ i ih =>
    apply Runs.lift_keeps hw
    intro v hv
    by_cases hout : i + 1 < 64 ∧ bound >>> (i + 1) ≠ 0
    · rw [if_pos hout]
      exact Runs.pure hw hw.canonical.has_zero
    · rw [if_neg hout]
      apply Runs.lift_keeps hw
      intro mask _
      apply Runs.bind (ih hw)
      intro rest w1 hl1 hrest
      apply Runs.bind (literal_keeps hl1.after (bit_pos hv))
      intro x w2 hl2 hx
      have hrest := hl2.grows.has hrest
      have hm := hl2.after.canonical
      split_ifs
      · exact ite_keeps hl2.after hx hrest hm.has_zero
      · exact ite_keeps hl2.after hx hm.has_one hrest

theorem range_keeps {lo hi : Nat} (hw : w.current.WellFormed) :
    Keeps w (range d lo hi) fun r m => m.Has r := by
  unfold range
  split_ifs
  · exact Runs.pure hw hw.canonical.has_zero
  · apply Runs.bind (atMost_keeps hw)
    intro below w1 hl1 hbelow
    apply Runs.bind (atLeast_keeps hl1.after)
    intro above w2 hl2 habove
    exact conj_keeps hl2.after (hl2.grows.has hbelow) habove

end Bdd

namespace ValueSet

open Bdd

variable {w w' : Workspace} {m : Manager} {s t : ValueSet} {d : Domain} {f : Ref} {n : Nat}

theorem Shows.belongs {P : Nat → Prop} (h : s.Shows m P) : s.Belongs m := ⟨h.home, h.denotes.has⟩

theorem ofFn_keeps (hw : w.current.WellFormed) (hf : w.current.Has f) :
    Keeps w (ofFn d f) fun s m => s.Belongs m := .ask_bind rfl (Runs.pure hw ⟨rfl, hf⟩)

theorem empty_keeps (hw : w.current.WellFormed) : Keeps w (empty d) fun s m => s.Belongs m :=
  ofFn_keeps hw hw.canonical.has_zero

theorem singleton_keeps {v : Nat} (hw : w.current.WellFormed) :
    Keeps w (singleton d v) fun s m => s.Belongs m :=
  .bind (value_keeps hw) fun _ _ hl hf => ofFn_keeps hl.after hf

theorem range_keeps {lo hi : Nat} (hw : w.current.WellFormed) :
    Keeps w (range d lo hi) fun s m => s.Belongs m :=
  .bind (Bdd.range_keeps hw) fun _ _ hl hf => ofFn_keeps hl.after hf

theorem ofList_keeps {vs : List Nat} (hw : w.current.WellFormed) :
    Keeps w (ofList d vs) fun s m => s.Belongs m :=
  .bind (disjMap_keeps hw fun _ _ _ hl => value_keeps hl.after) fun _ _ hl hf =>
    ofFn_keeps hl.after hf

theorem firstStates_keeps (hw : w.current.WellFormed) :
    Keeps w (firstStates d n) fun s m => s.Belongs m := by
  unfold firstStates
  split_ifs
  · exact empty_keeps hw
  · exact range_keeps hw

theorem truncate_keeps (hw : w.current.WellFormed) (hs : s.Belongs w.current) :
    Keeps w (s.truncate n d) fun r m => m.Has r := by
  unfold truncate
  split_ifs
  · exact Runs.pure hw hs.has
  · apply Runs.lift_keeps hw
    intro dropped _
    apply Runs.bind (value_keeps hw)
    intro zero w1 hl1 hzero
    have hs1 := hs.later hl1
    apply Runs.bind (implies_keeps hl1.after hs1.has hzero)
    intro unused w2 hl2 _
    have hs2 := hs1.later hl2
    cases unused with
    | true => exact exist_keeps hl2.after hs2.has
    | false =>
      apply Runs.ask_keeps hl2.after
      intro vs _
      exact Runs.throw hl2.after trivial

theorem pad_keeps (hw : w.current.WellFormed) (hf : w.current.Has f) :
    Keeps w (pad f n d) fun r m => m.Has r := by
  unfold pad
  split_ifs
  · exact Runs.pure hw hf
  · apply Runs.lift_keeps hw
    intro added _
    apply Runs.bind (value_keeps hw)
    intro zero w1 hl1 hzero
    exact conj_keeps hl1.after (hl1.grows.has hf) hzero

theorem withDomain_keeps (hw : w.current.WellFormed) (hs : s.Belongs w.current) :
    Keeps w (s.withDomain d) fun t m => t.Belongs m := by
  unfold withDomain
  split_ifs
  · exact Runs.pure hw hs
  · apply Runs.bind (truncate_keeps hw hs)
    intro f w1 hl1 hf
    apply Runs.lift_keeps hl1.after
    intro low _
    apply Runs.lift_keeps hl1.after
    intro low' _
    apply Runs.lift_keeps hl1.after
    intro names hnames
    have hjoins := Domain.joins_of_renamingTo hnames
    apply Runs.bind (rename_keeps (fun v hv => hjoins.pos hv) hl1.after hf)
    intro g w2 hl2 hg
    apply Runs.bind (pad_keeps hl2.after hg)
    intro r w3 hl3 hr
    exact Runs.pure hl3.after ⟨(hs.later (hl1.trans (hl2.trans hl3))).home, hr⟩

theorem moved_keeps (hw : w.current.WellFormed) (hs : s.Belongs w.current) :
    Keeps w (s.moved d) fun t m => t.Belongs m := .within hs.home (withDomain_keeps hw hs)

section Pairs

variable (hw : w.current.WellFormed) (hs : s.Belongs w.current) (ht : t.Belongs w.current)

include hw hs ht

theorem aligned_keeps : Keeps w (s.aligned t) fun r m => m.Has r.2.1 ∧ m.Has r.2.2 := by
  unfold aligned
  rw [if_neg (not_not_intro (hs.home.trans ht.home.symm))]
  split_ifs
  · exact Runs.pure hw ⟨hs.has, ht.has⟩
  · apply Runs.bind (withDomain_keeps hw hs)
    intro s' w1 hl1 hs'
    apply Runs.bind (withDomain_keeps hl1.after (ht.later hl1))
    intro t' w2 hl2 ht'
    exact Runs.pure hl2.after ⟨(hs'.later hl2).has, ht'.has⟩

theorem combine_keeps {op : Ref → Ref → BddM Ref}
    (hop : ∀ w' f g, w.Leads w' → w'.current.Has f → w'.current.Has g →
      Keeps w' (op f g) fun r m => m.Has r) :
    Keeps w (do
      let (d, f, g) ← s.aligned t
      return { s with domain := d, fn := ← op f g }) fun r m => r.Belongs m := by
  apply Runs.bind (aligned_keeps hw hs ht)
  intro r w1 hl1 hr
  apply Runs.bind (hop w1 _ _ hl1 hr.1 hr.2)
  intro f w2 hl2 hf
  exact Runs.pure hl2.after ⟨(hs.later (hl1.trans hl2)).home, hf⟩

theorem union_keeps : Keeps w (s.union t) fun r m => r.Belongs m :=
  combine_keeps hw hs ht fun _ _ _ hl hf hg => disj_keeps hl.after hf hg

theorem inter_keeps : Keeps w (s.inter t) fun r m => r.Belongs m :=
  combine_keeps hw hs ht fun _ _ _ hl hf hg => conj_keeps hl.after hf hg

theorem sdiff_keeps : Keeps w (s.sdiff t) fun r m => r.Belongs m :=
  combine_keeps hw hs ht fun _ _ _ hl hf hg => diff_keeps hl.after hf hg

theorem same_keeps : Keeps w (s.same t) fun _ _ => True :=
  .bind (aligned_keeps hw hs ht) fun _ _ hl _ => Runs.pure hl.after trivial

theorem intersects_keeps : Keeps w (s.intersects t) fun _ _ => True :=
  .bind (inter_keeps hw hs ht) fun _ _ hl _ => Runs.pure hl.after trivial

end Pairs

theorem extend_keeps {b : Bool} (hw : w.current.WellFormed) (hs : s.Belongs w.current) :
    Keeps w (s.extend d b) fun t m => t.Belongs m := by
  unfold extend
  apply Runs.check_keeps hw
  intro _
  apply Runs.lift_keeps hw
  intro low _
  apply Runs.bind (withDomain_keeps hw hs)
  intro moved w1 hl1 hmoved
  apply Runs.lift_keeps hl1.after
  intro added _
  apply Runs.bind (fill_keeps hl1.after)
  intro high w2 hl2 hhigh
  apply Runs.bind (conj_keeps hl2.after (hl2.grows.has hmoved.has) hhigh)
  intro r w3 hl3 hr
  exact Runs.pure hl3.after ⟨(hs.later (hl1.trans (hl2.trans hl3))).home, hr⟩

theorem closeFrom_keeps {step : ValueSet → BddM ValueSet} {fuel : Nat}
    (hw : w.current.WellFormed) (hs : s.Belongs w.current)
    (hstep : ∀ w' t, w.Leads w' → t.Belongs w'.current →
      Keeps w' (step t) fun r m => r.Belongs m) :
    Keeps w (closeFrom step fuel s) fun r m => r.Belongs m := by
  induction fuel generalizing w s with
  | zero => exact Runs.throw hw trivial
  | succ fuel ih =>
    apply Runs.bind (hstep w s (.refl hw) hs)
    intro found w1 hl1 hfound
    have hs1 := hs.later hl1
    apply Runs.bind (union_keeps hl1.after hs1 hfound)
    intro next w2 hl2 hnext
    have hs2 := hs1.later hl2
    apply Runs.bind (same_keeps hl2.after hnext hs2)
    intro done w3 hl3 _
    have hl := hl1.trans (hl2.trans hl3)
    cases done with
    | true => exact Runs.pure hl3.after (hs2.later hl3)
    | false => exact ih hl3.after (hnext.later hl3) fun w' t hl' => hstep w' t (hl.trans hl')

end ValueSet

theorem Renaming.pos_foldl_insert {r : Renaming} {es : List (Nat × Nat)}
    (hr : ∀ v, 0 < v → 0 < r.apply v) (hes : ∀ e ∈ es, 0 < e.2) :
    ∀ v, 0 < v → 0 < (es.foldl insert r).apply v := by
  induction es generalizing r with
  | nil => exact hr
  | cons e es ih =>
    apply ih
    · intro v hv
      rw [apply_insert]
      split_ifs
      · exact hes e (by simp)
      · exact hr v hv
    · exact fun e he => hes e (by simp [he])

namespace SymbolSet

open Bdd

variable {w w' : Workspace} {m : Manager} {s : SymbolSet} {bits : Domain} {names : Renaming}

theorem project_keeps (hw : w.current.WellFormed) (hs : s.Belongs w.current) :
    Keeps w (s.project bits) fun t m => t.Belongs m := by
  apply Runs.lift_keeps hw
  intro d _
  apply Runs.bind (exist_keeps hw hs.has)
  intro f w1 hl1 hf
  exact Runs.pure hl1.after ⟨(hs.later hl1).home, hf⟩

theorem bitVar_pos {bit v : Nat} (h : bitVar bit = .ok v) : 0 < v := by
  obtain ⟨d, -, h⟩ := exists_of_bind_eq_ok h
  obtain ⟨e, -, h⟩ := exists_of_bind_eq_ok h
  obtain rfl : e.base = v := Except.ok.inj h
  exact Nat.pos_of_ne_zero e.base_ne_zero

theorem exists_of_bitRenaming {names' : Renaming} (h : bitRenaming names = .ok names') :
    ∃ es, Renaming.ofList es = names' ∧
      ∀ e ∈ es, (∃ bit, bitVar bit = .ok e.1) ∧ ∃ bit, bitVar bit = .ok e.2 := by
  obtain ⟨es, hmake, h⟩ := exists_of_bind_eq_ok h
  refine ⟨es, Except.ok.inj h, fun e he => ?_⟩
  obtain ⟨⟨a, b⟩, -, hab⟩ := exists_left_of_forall₂ (forall₂_of_mapM hmake) e he
  obtain ⟨a', ha, hab⟩ := exists_of_bind_eq_ok hab
  obtain ⟨b', hb, hab⟩ := exists_of_bind_eq_ok hab
  obtain rfl : (a', b') = e := Except.ok.inj hab
  exact ⟨⟨a, ha⟩, b, hb⟩

theorem bitRenaming_pos {names' : Renaming} (h : bitRenaming names = .ok names') :
    ∀ v, 0 < v → 0 < names'.apply v := by
  obtain ⟨es, rfl, hes⟩ := exists_of_bitRenaming h
  apply Renaming.pos_foldl_insert
  · exact fun v hv => hv
  · intro e he
    obtain ⟨-, bit, hbit⟩ := hes e he
    exact bitVar_pos hbit

theorem rename_keeps (hw : w.current.WellFormed) (hs : s.Belongs w.current) :
    Keeps w (s.rename names) fun t m => t.Belongs m := by
  apply Runs.lift_keeps hw
  intro names' hnames
  apply Runs.bind (Bdd.rename_keeps (bitRenaming_pos hnames) hw hs.has)
  intro f w1 hl1 hf
  exact Runs.pure hl1.after ⟨(hs.later hl1).home, hf⟩

end SymbolSet

namespace Relation

open Bdd

variable {w w' : Workspace} {m : Manager} {r t map : Relation} {s : ValueSet} {on : SymbolSet}
  {ds : List Domain} {d : Domain} {f : Ref} {pos i j : Nat}

theorem Shows.belongs {R : List Nat → Prop} (h : r.Shows m R) : r.Belongs m :=
  ⟨h.home, h.denotes.has⟩

theorem ofFn_keeps (hw : w.current.WellFormed) (hf : w.current.Has f) :
    Keeps w (ofFn ds f) fun r m => r.Belongs m := by
  apply Runs.lift_keeps hw
  intro overlap _
  cases overlap with
  | some p => exact Runs.throw hw trivial
  | none => exact .ask_bind rfl (Runs.pure hw ⟨rfl, hf⟩)

theorem withFn_keeps {x : BddM Ref} (hr : r.Belongs w.current)
    (hx : Keeps w x fun f m => m.Has f) :
    Keeps w (do return r.withFn (← x)) fun t m => t.Belongs m := by
  apply Runs.bind hx
  intro f w1 hl1 hf
  exact Runs.pure hl1.after ⟨(hr.later hl1).home, hf⟩

section Operations

variable (hw : w.current.WellFormed) (hr : r.Belongs w.current)

include hw hr

theorem union_keeps (ht : t.Belongs w.current) :
    Keeps w (r.union t) fun u m => u.Belongs m := by
  apply Runs.lift_keeps hw
  intro _ _
  exact withFn_keeps hr (disj_keeps hw hr.has ht.has)

theorem restrict_keeps (hs : s.Belongs w.current) :
    Keeps w (r.restrict pos s) fun u m => u.Belongs m := by
  apply Runs.lift_keeps hw
  intro d _
  apply Runs.bind (ValueSet.moved_keeps hw hs)
  intro s' w1 hl1 hs'
  have hr1 := hr.later hl1
  exact withFn_keeps hr1 (conj_keeps hl1.after hr1.has hs'.has)

theorem restrictSymbols_keeps (hon : on.Belongs w.current) :
    Keeps w (r.restrictSymbols pos on) fun u m => u.Belongs m := by
  apply Runs.lift_keeps hw
  intro _ _
  exact withFn_keeps hr (conj_keeps hw hr.has hon.has)

theorem project_keeps : Keeps w (r.project pos) fun u m => u.Belongs m := by
  apply Runs.lift_keeps hw
  intro d _
  exact withFn_keeps hr (exist_keeps hw hr.has)

theorem projectOthers_keeps : Keeps w (r.projectOthers pos) fun f m => m.Has f := by
  apply foldlM_keeps hw hr.has
  rintro ⟨d, i⟩ - w1 f hl1 hf
  dsimp only
  split_ifs
  · exact Runs.pure hl1.after hf
  · exact exist_keeps hl1.after hf

theorem projectOn_keeps : Keeps w (r.projectOn pos) fun s m => s.Belongs m := by
  apply Runs.lift_keeps hw
  intro d _
  apply Runs.bind (projectOthers_keeps hw hr)
  intro f w1 hl1 hf
  exact Runs.pure hl1.after ⟨(hr.later hl1).home, hf⟩

theorem step_keeps {dir : Direction} (hs : s.Belongs w.current) (hon : on.Belongs w.current) :
    Keeps w (r.step dir s on) fun t m => t.Belongs m := by
  apply Runs.bind (restrict_keeps hw hr hs)
  intro r1 w1 hl1 hr1
  apply Runs.bind (restrictSymbols_keeps hl1.after hr1 (hon.later hl1))
  intro r2 w2 hl2 hr2
  exact projectOn_keeps hl2.after hr2

theorem withDomain_keeps : Keeps w (r.withDomain pos d) fun u m => u.Belongs m := by
  apply Runs.lift_keeps hw
  intro source _
  split_ifs
  · exact Runs.pure hw hr
  · apply Runs.lift_keeps hw
    intro _ _
    have hs : (ValueSet.mk r.manager source r.fn).Belongs w.current := ⟨hr.home, hr.has⟩
    apply Runs.bind (ValueSet.withDomain_keeps hw hs)
    intro moved w1 hl1 hmoved
    exact Runs.pure hl1.after ⟨(hr.later hl1).home, hmoved.has⟩

theorem moveAll_keeps {moves : List (Nat × Domain)} :
    Keeps w (r.moveAll moves) fun u m => u.Belongs m := by
  apply foldlM_keeps hw hr
  intro move _ w1 u hl1 hu
  exact withDomain_keeps hl1.after hu

theorem stage_keeps {moves : List (Nat × Domain)} {base : Nat} :
    Keeps w (r.stage moves base) fun u m => u.Belongs m := by
  apply Runs.bind
  · apply foldlM_keeps (S := fun (p : Relation × Nat) m => p.1.Belongs m) hw hr
    intro move _ w1 p hl1 hp
    apply Runs.lift_keeps hl1.after
    intro e _
    apply Runs.bind (withDomain_keeps hl1.after hp)
    intro u w2 hl2 hu
    apply Runs.lift_keeps hl2.after
    intro next _
    exact Runs.pure hl2.after hu
  · exact fun p w1 hl1 hp => Runs.pure hl1.after hp

theorem withDomains_keeps : Keeps w (r.withDomains ds) fun u m => u.Belongs m := by
  unfold withDomains
  apply Runs.check_keeps hw
  intro _
  apply Runs.lift_keeps hw
  intro top _
  apply Runs.bind (stage_keeps hw hr)
  intro u w1 hl1 hu
  exact moveAll_keeps hl1.after hu

theorem extend_keeps {b : Bool} : Keeps w (r.extend pos d b) fun u m => u.Belongs m := by
  apply Runs.lift_keeps hw
  intro source _
  apply Runs.check_keeps hw
  intro _
  apply Runs.lift_keeps hw
  intro _ _
  apply Runs.lift_keeps hw
  intro n _
  apply Runs.lift_keeps hw
  intro added _
  apply Runs.bind (fill_keeps hw)
  intro high w1 hl1 hhigh
  have hr1 := hr.later hl1
  apply Runs.bind (conj_keeps hl1.after hr1.has hhigh)
  intro f w2 hl2 hf
  exact Runs.pure hl2.after ⟨(hr1.later hl2).home, hf⟩

theorem transpose_keeps : Keeps w (r.transpose i j) fun u m => u.Belongs m := by
  apply Runs.lift_keeps hw
  intro a _
  apply Runs.lift_keeps hw
  intro b _
  apply Runs.check_keeps hw
  intro _
  apply Runs.lift_keeps hw
  intro names hnames
  apply Runs.lift_keeps hw
  intro names' hnames'
  have hjoins := Domain.joins_of_renamingTo hnames
  have hjoins' := Domain.joins_of_renamingTo hnames'
  exact withFn_keeps hr
    (rename_keeps (fun v hv => hjoins.pos_extend hjoins' hv) hw hr.has)

theorem compose_keeps (hmap : map.Belongs w.current) :
    Keeps w (r.compose pos map) fun u m => u.Belongs m := by
  unfold compose
  apply Runs.check_keeps hw
  intro _
  apply Runs.lift_keeps hw
  intro source _
  apply Runs.lift_keeps hw
  intro x _
  apply Runs.lift_keeps hw
  intro y _
  apply Runs.check_keeps hw
  intro _
  apply Runs.lift_keeps hw
  intro _ _
  apply Runs.lift_keeps hw
  intro top _
  apply Runs.lift_keeps hw
  intro scratch _
  apply Runs.lift_keeps hw
  intro names hnames
  apply Runs.lift_keeps hw
  intro names' hnames'
  have hjoins := Domain.joins_of_renamingTo hnames
  have hjoins' := Domain.joins_of_renamingTo hnames'
  apply Runs.bind (rename_keeps (fun v hv => hjoins.pos_extend hjoins' hv) hw hmap.has)
  intro moved w1 hl1 hmoved
  have hr1 := hr.later hl1
  apply Runs.bind (joinExist_keeps hl1.after hr1.has hmoved)
  intro joined w2 hl2 hjoined
  apply Runs.lift_keeps hl2.after
  intro back hback
  have hjoinsback := Domain.joins_of_renamingTo hback
  apply Runs.bind (rename_keeps (fun v hv => hjoinsback.pos hv) hl2.after hjoined)
  intro f w3 hl3 hf
  exact Runs.pure hl3.after ⟨(hr1.later (hl2.trans hl3)).home, hf⟩

end Operations

end Relation

namespace ValueSet

open Bdd

variable {w : Workspace} {s : ValueSet} {map : Relation}

theorem compress_keeps (hw : w.current.WellFormed) :
    Keeps w s.compress fun r m => r.Belongs m := by
  apply Runs.ask_keeps hw
  intro vs _
  apply Runs.lift_keeps hw
  intro stop _
  apply Runs.lift_keeps hw
  intro index _
  refine .bind (disjMap_keeps hw ?_) fun f w1 hl1 hf => Relation.ofFn_keeps hl1.after hf
  rintro ⟨v, i⟩ - w1 hl1
  apply Runs.bind (value_keeps hl1.after)
  intro x w2 hl2 hx
  apply Runs.bind (value_keeps hl2.after)
  intro y w3 hl3 hy
  exact conj_keeps hl3.after (hl3.grows.has hx) hy

theorem image_keeps (hw : w.current.WellFormed) (hs : s.Belongs w.current)
    (hmap : map.Belongs w.current) : Keeps w (s.image map) fun t m => t.Belongs m := by
  apply Runs.bind (Relation.ofFn_keeps hw hs.has)
  intro r w1 hl1 hr
  apply Runs.bind (Relation.compose_keeps hl1.after hr (hmap.later hl1))
  intro u w2 hl2 hu
  exact Relation.projectOn_keeps hl2.after hu

end ValueSet

end SymbolicAutomata
