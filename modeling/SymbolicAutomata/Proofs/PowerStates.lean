import SymbolicAutomata.Proofs.Closures
import SymbolicAutomata.Proofs.Replacements
import SymbolicAutomata.SubsetConstruction
/-!
# The discovery of power-states

A power-state is held as a function over the scratch block, one for each set of states. The search
finds each set once, and when it ends every move of a found set leads to a found set.
-/
namespace SymbolicAutomata

open Manager Bdd Layout SymbolicNfa

/-- The function holds where the scratch block carries a number of the set. -/
def Power (m : Manager) (k : Nat) (S : Set Nat) (p : Ref) : Prop :=
  m.Denotes p fun t => (scratch k).read t ∈ S

variable {m : Manager} {w w' : Workspace} {g : NFA Nat Nat} {k n : Nat} {S T : Set Nat}
  {p q f : Ref} {found followed : List Ref} {Ss : List (Set Nat)}

theorem Power.later (h : Power w.current k S p) (hl : w.Leads w') : Power w'.current k S p :=
  hl.denotes h

theorem Power.unique (hm : m.Canonical) (hp : Power m k S p) (hq : Power m k S q) : p = q :=
  (hp.eq_iff hm hq).2 fun _ => Iff.rfl

theorem Power.injective (hp : Power m k S p) (hq : Power m k T p) (hS : ∀ v ∈ S, v < 2 ^ k)
    (hT : ∀ v ∈ T, v < 2 ^ k) : S = T := by
  have hread : ∀ v < 2 ^ k, v ∈ S ↔ v ∈ T := by
    intro v hv
    have h1 := hp.holds ((scratch k).write v fun _ => false)
    have h2 := hq.holds ((scratch k).write v fun _ => false)
    have hv' : (scratch k).read ((scratch k).write v fun _ => false) = v :=
      Domain.read_write (d := scratch k) hv _
    rw [hv'] at h1 h2
    exact h1.symm.trans h2
  ext v
  constructor
  · exact fun hv => (hread v (hS v hv)).1 hv
  · exact fun hv => (hread v (hT v hv)).2 hv

/-- The set is reached from the starting states on some word. -/
def Reached (g : NFA Nat Nat) (S : Set Nat) : Prop :=
  ∃ cs, Lettered cs ∧ S = g.evalFrom g.start cs

theorem Reached.start : Reached g g.start := ⟨[], lettered_nil, rfl⟩

theorem Reached.step {c : Nat} (h : Reached g S) (hc : c < letterCount) :
    Reached g (g.stepSet S c) := by
  obtain ⟨cs, hcs, rfl⟩ := h
  refine ⟨cs ++ [c], by simp [hcs, hc], ?_⟩
  rw [NFA.evalFrom_append, NFA.evalFrom_singleton]

theorem Reached.lt (h : Reached g S) (hg : Bounded g n) : ∀ v ∈ S, v < n := by
  obtain ⟨cs, -, rfl⟩ := h
  exact hg.eval hg.start cs

/-- The moves out of a set: where the alphabet block carries a letter, the numbers reached. -/
def Moves (m : Manager) (g : NFA Nat Nat) (k : Nat) (S : Set Nat) (f : Ref) : Prop :=
  m.Denotes f fun t => (scratch k).read t ∈ g.stepSet S (alphabet.read t)

/-- The variables below the scratch block decide the letter, those above the set. -/
theorem read_mix (k : Nat) (s t : Assignment) :
    alphabet.read (fun v => if v < scratchBase then s v else t v) = alphabet.read s ∧
      (scratch k).read (fun v => if v < scratchBase then s v else t v) = (scratch k).read t := by
  constructor
  · refine Domain.read_congr fun v _ hv => if_pos ?_
    exact hv
  · exact Domain.read_congr fun v hv _ => if_neg (Nat.not_lt.2 hv)

/-- What remains of the moves on a letter is the set reached. -/
theorem Moves.remains {s : Assignment} (h : Moves m g k S f) (hm : m.Canonical)
    (hp : m.Remains scratchBase f s p) : Power m k (g.stepSet S (alphabet.read s)) p :=
  (hp.denotes hm h).congr fun t => by rw [(read_mix k s t).1, (read_mix k s t).2]

/-- The functions listed below the scratch block are the sets one letter away. -/
theorem Moves.cofactorsBelow (h : Moves m g k S f) (hm : m.Canonical) :
    ∃ ts, m.cofactorsBelow f scratchBase = .ok ts ∧
      (∀ p ∈ ts, ∃ c < letterCount, Power m k (g.stepSet S c) p) ∧
      ∀ c < letterCount, ∃ p ∈ ts, Power m k (g.stepSet S c) p := by
  obtain ⟨ts, hts, -, hmem⟩ := cofactorsBelow_spec hm h.has scratchBase
  refine ⟨ts, hts, fun p hp => ?_, fun c hc => ?_⟩
  · obtain ⟨s, hs⟩ := (hmem p).1 hp
    exact ⟨alphabet.read s, alphabet.read_lt s, h.remains hm hs⟩
  · have hread : alphabet.read (alphabet.write c fun _ => false) = c :=
      Domain.read_write (d := alphabet) hc _
    obtain ⟨p, hp, -⟩ := exists_remains hm h.has scratchBase (alphabet.write c fun _ => false)
    have hpower := h.remains hm hp
    rw [hread] at hpower
    exact ⟨p, (hmem p).2 ⟨_, hp⟩, hpower⟩

/-- What the search keeps: each found reference stands for one reached set, the first for the
starting states, and the moves of a followed set are known and lead to found sets. -/
structure Explored (m : Manager) (g : NFA Nat Nat) (k : Nat) (Ss : List (Set Nat))
    (found followed : List Ref) : Prop where
  named : List.Forall₂ (Power m k) Ss found
  distinct : found.Nodup
  first : Ss[0]? = some g.start
  reached : ∀ S ∈ Ss, Reached g S
  moves : ∀ (i : Nat) (f : Ref), followed[i]? = some f → ∃ S, Ss[i]? = some S ∧ Moves m g k S f ∧
    ∀ c < letterCount, g.stepSet S c ∈ Ss

theorem Explored.later (h : Explored w.current g k Ss found followed) (hl : w.Leads w') :
    Explored w'.current g k Ss found followed where
  named := h.named.imp fun _ _ hp => hp.later hl
  distinct := h.distinct
  first := h.first
  reached := h.reached
  moves i f hf := by
    obtain ⟨S, hS, hmoves, hclosed⟩ := h.moves i f hf
    exact ⟨S, hS, hl.denotes hmoves, hclosed⟩

theorem Explored.begin (h : Power m k g.start p) : Explored m g k [g.start] [p] [] where
  named := .cons h .nil
  distinct := List.nodup_singleton _
  first := rfl
  reached S hS := List.mem_singleton.1 hS ▸ .start
  moves i f hf := by simp at hf

theorem Explored.length_le (h : Explored m g k Ss found followed) :
    followed.length ≤ found.length := by
  rw [← h.named.length_eq]
  by_contra hlt
  have hne : Ss.length < followed.length := by omega
  obtain ⟨S, hS, -⟩ := h.moves Ss.length _ (List.getElem?_eq_getElem hne)
  have := (List.getElem?_eq_some_iff.1 hS).1
  omega

/-- Sets and references stand at the same places. -/
theorem named_at {i : Nat} (h : List.Forall₂ (Power m k) Ss found) (hp : found[i]? = some p) :
    ∃ S, Ss[i]? = some S ∧ Power m k S p := getElem?_left_of_forall₂ h hp

theorem at_named {i : Nat} (h : List.Forall₂ (Power m k) Ss found) (hS : Ss[i]? = some S) :
    ∃ p, found[i]? = some p ∧ Power m k S p := getElem?_right_of_forall₂ h hS

theorem mem_of_named (h : List.Forall₂ (Power m k) Ss found) (hp : p ∈ found) :
    ∃ S ∈ Ss, Power m k S p := exists_left_of_forall₂ h p hp

theorem named_of_mem (h : List.Forall₂ (Power m k) Ss found) (hS : S ∈ Ss) :
    ∃ p ∈ found, Power m k S p := exists_right_of_forall₂ h S hS

theorem nodup_of_named (h : List.Forall₂ (Power m k) Ss found) (hm : m.Canonical)
    (hd : found.Nodup) : Ss.Nodup := by
  induction h with
  | nil => exact .nil
  | @cons S p Ss found hhead htail ih =>
    obtain ⟨hp, hd⟩ := List.nodup_cons.1 hd
    refine List.nodup_cons.2 ⟨fun hS => ?_, ih hd⟩
    obtain ⟨q, hq, hpower⟩ := named_of_mem htail hS
    obtain rfl := hhead.unique hm hpower
    exact hp hq

theorem exists_named {ts : List Ref} {Q : Set Nat → Prop}
    (h : ∀ p ∈ ts, ∃ S, Power m k S p ∧ Q S) :
    ∃ Ts, List.Forall₂ (Power m k) Ts ts ∧ ∀ S ∈ Ts, Q S := by
  induction ts with
  | nil => exact ⟨[], .nil, by simp⟩
  | cons p ts ih =>
    obtain ⟨S, hS, hQ⟩ := h p (by simp)
    obtain ⟨Ts, hTs, hQs⟩ := ih fun q hq => h q (by simp [hq])
    refine ⟨S :: Ts, .cons hS hTs, fun T hT => ?_⟩
    rcases List.mem_cons.1 hT with rfl | hT
    · exact hQ
    · exact hQs T hT

theorem foldl_discover (ts : List Ref) (hd : found.Nodup) :
    ∃ new, ts.foldl discover found = found ++ new ∧ (found ++ new).Nodup ∧
      (∀ p ∈ new, p ∈ ts) ∧ ∀ p ∈ ts, p ∈ found ++ new := by
  induction ts generalizing found with
  | nil => exact ⟨[], by simp, by simpa using hd, by simp, by simp⟩
  | cons q ts ih =>
    rw [List.foldl_cons, discover]
    split_ifs with hq
    · obtain ⟨new, heq, hnodup, hnew, hall⟩ := ih hd
      refine ⟨new, heq, hnodup, fun p hp => by simp [hnew p hp], fun p hp => ?_⟩
      rcases List.mem_cons.1 hp with rfl | hp
      · simp [hq]
      · exact hall p hp
    · have hd' : (found ++ [q]).Nodup := by
        rw [List.nodup_append_comm]
        exact List.nodup_cons.2 ⟨hq, hd⟩
      obtain ⟨new, heq, hnodup, hnew, hall⟩ := ih hd'
      rw [List.append_assoc] at heq hnodup hall
      refine ⟨q :: new, heq, hnodup, fun p hp => ?_, fun p hp => ?_⟩
      · rcases List.mem_cons.1 hp with rfl | hp
        · simp
        · simp [hnew p hp]
      · rcases List.mem_cons.1 hp with rfl | hp
        · simp
        · exact hall p hp

/-- The moves of one more set are followed. -/
theorem Explored.follow (h : Explored m g k Ss found followed) (hm : m.Canonical)
    (hg : Bounded g (2 ^ k)) (hS : Ss[followed.length]? = some S) (hf : Moves m g k S f) :
    ∃ ts Ts, m.cofactorsBelow f scratchBase = .ok ts ∧
      Explored m g k Ts (ts.foldl discover found) (followed ++ [f]) := by
  have hreached := h.reached S (List.mem_of_getElem? hS)
  obtain ⟨ts, hts, hfrom, hto⟩ := hf.cofactorsBelow hm
  obtain ⟨new, heq, hnodup, hnew, hall⟩ := foldl_discover ts h.distinct
  obtain ⟨Ns, hNs, hstep⟩ := exists_named (Q := fun N => ∃ c < letterCount, N = g.stepSet S c)
    fun p hp => by
      obtain ⟨c, hc, hpower⟩ := hfrom p (hnew p hp)
      exact ⟨_, hpower, c, hc, rfl⟩
  have hnamed : List.Forall₂ (Power m k) (Ss ++ Ns) (found ++ new) :=
    List.rel_append h.named hNs
  have hall' : ∀ N ∈ Ss ++ Ns, Reached g N := by
    intro N hN
    rcases List.mem_append.1 hN with hN | hN
    · exact h.reached N hN
    · obtain ⟨c, hc, rfl⟩ := hstep N hN
      exact hreached.step hc
  refine ⟨ts, Ss ++ Ns, hts, heq ▸ hnamed, heq ▸ hnodup, ?_, hall', fun i f' hf' => ?_⟩
  · exact List.getElem?_append_left (List.getElem?_eq_some_iff.1 h.first).1 ▸ h.first
  · have hold : ∀ {i T}, Ss[i]? = some T → (Ss ++ Ns)[i]? = some T := fun hT =>
      List.getElem?_append_left (List.getElem?_eq_some_iff.1 hT).1 ▸ hT
    rcases Nat.lt_or_ge i followed.length with hi | hi
    · rw [List.getElem?_append_left hi] at hf'
      obtain ⟨T, hT, hmoves, hclosed⟩ := h.moves i f' hf'
      exact ⟨T, hold hT, hmoves, fun c hc => List.mem_append_left _ (hclosed c hc)⟩
    · have hlast := (List.getElem?_eq_some_iff.1 hf').1
      rw [List.length_append, List.length_singleton] at hlast
      obtain rfl : i = followed.length := by omega
      obtain rfl : f = f' := by simpa using hf'
      refine ⟨S, hold hS, hf, fun c hc => ?_⟩
      obtain ⟨p, hp, hpower⟩ := hto c hc
      obtain ⟨T, hT, hpower'⟩ := mem_of_named hnamed (hall p hp)
      rwa [hpower.injective hpower' ((hreached.step hc).lt hg) ((hall' T hT).lt hg)]

/-- There are `n` different reached sets. -/
def ManyReached (g : NFA Nat Nat) (n : Nat) : Prop :=
  ∃ Ts : List (Set Nat), Ts.Nodup ∧ (∀ S ∈ Ts, Reached g S) ∧ n ≤ Ts.length

/-- The search ends with the moves of every found set followed. It fails only if there are too many
sets for its fuel. -/
theorem explore_runs {moves : Ref → BddM Ref} {fuel : Nat} (hw : w.current.WellFormed)
    (hg : Bounded g (2 ^ k))
    (hmoves : ∀ w' S p, w.Leads w' → Reached g S → Power w'.current k S p →
      Yields w' (moves p) fun f m => Moves m g k S f)
    (h : Explored w.current g k Ss found followed) :
    Runs (ManyReached g (fuel + followed.length)) w (explore moves fuel found followed) fun r m =>
      r.2.length = r.1.length ∧ r.1.length < fuel + followed.length ∧
        ∃ Ts, Explored m g k Ts r.1 r.2 := by
  induction fuel generalizing w Ss found followed with
  | zero =>
    have hle := h.length_le
    have hlen := h.named.length_eq
    exact Runs.throw hw ⟨Ss, nodup_of_named h.named hw.canonical h.distinct, h.reached, by omega⟩
  | succ fuel ih =>
    unfold explore
    cases hnext : found[followed.length]? with
    | none =>
      have hge := List.getElem?_eq_none_iff.1 hnext
      have hle := h.length_le
      exact Runs.pure hw ⟨by simp only; omega, by simp only; omega, Ss, h⟩
    | some p =>
      obtain ⟨S, hS, hpower⟩ := named_at h.named hnext
      refine .bind (.weaken (hmoves w S p (.refl hw) (h.reached S (List.mem_of_getElem? hS))
        hpower)) fun f w1 hl1 hf => ?_
      obtain ⟨ts, Ts, hts, hTs⟩ := (h.later hl1).follow hl1.after.canonical hg hS hf
      have hrest := ih hl1.after (fun w' S p hl => hmoves w' S p (hl1.trans hl)) hTs
      have hlength : fuel + (followed ++ [f]).length = fuel + 1 + followed.length := by
        rw [List.length_append, List.length_singleton]
        omega
      rw [hlength] at hrest
      exact .ask_bind hts hrest

end SymbolicAutomata
