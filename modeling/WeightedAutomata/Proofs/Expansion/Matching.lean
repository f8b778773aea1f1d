-- What is found in an expansion. A state of the expansion and the state it stands for are left
-- alike, also behind a negated class, so the expansion accepts what the machine does. The splits
-- of one state differ in how they are entered, and that no search asks for.
import WeightedAutomata.Proofs.DepthLimit
import WeightedAutomata.Proofs.Expansion.Units

namespace WeightedAutomata

open Relation Expansion

namespace Machine.Splits

variable {m m' : Machine} {origins : List Origin} {k k' s s' : Nat} {t : Transition} {c : Char}
  {text : List Char} {p p' : Nat}

/-! ## States and what they stand for -/

theorem isFinal_iff (h : m.Splits origins m') (hk : StandsFor origins k s) :
    m'.IsFinal k ↔ m.IsFinal s := by
  unfold IsFinal
  rw [h.flags_of_standsFor hk]

theorem unlisted_iff (h : m.Splits origins m') (hk : StandsFor origins k s) :
    (∀ t ∈ m'.leaving k, t.inputLabel ≠ .ofChar c) ↔
      ∀ t ∈ m.leaving s, t.inputLabel ≠ .ofChar c := by
  rw [h.leaving_of_standsFor hk, List.forall_mem_map]
  rfl

/-- The last transition that leaves a marker leads on from each of its splits. -/
theorem outside (h : m.Splits origins m') (hk : StandsFor origins k s) (hout : m.Outside s c s') :
    ∃ k', m'.Outside k c k' ∧ StandsFor origins k' s' := by
  obtain ⟨hfinal, hunlisted, t, ht, rfl⟩ := hout
  have hlast : (m'.leaving k).getLast? = some (image origins k t) := by
    rw [h.leaving_of_standsFor hk, List.getLast?_map, ht]
    rfl
  refine ⟨(image origins k t).target, ⟨?_, (h.unlisted_iff hk).2 hunlisted, _, hlast, rfl⟩, ?_⟩
  · rwa [h.isFinal_iff hk]
  · exact h.standsFor_target hk (List.mem_of_getLast? ht)

theorem of_outside (h : m.Splits origins m') (hk : StandsFor origins k s)
    (hout : m'.Outside k c k') : ∃ s', m.Outside s c s' ∧ StandsFor origins k' s' := by
  obtain ⟨hfinal, hunlisted, t', ht', rfl⟩ := hout
  rw [h.leaving_of_standsFor hk, List.getLast?_map, Option.map_eq_some_iff] at ht'
  obtain ⟨t, ht, rfl⟩ := ht'
  refine ⟨t.target, ⟨?_, (h.unlisted_iff hk).1 hunlisted, t, ht, rfl⟩, ?_⟩
  · rwa [← h.isFinal_iff hk]
  · exact h.standsFor_target hk (List.mem_of_getLast? ht)

/-! ## Moves -/

/-- What a transition does, its image does, to a split of the state that is reached. -/
theorem leads (h : m.Splits origins m') (hk : StandsFor origins k s) (ht : t ∈ m.leaving s)
    (hleads : m.Leads text t p (s', p')) :
    ∃ k', m'.Leads text (image origins k t) p (k', p') ∧ StandsFor origins k' s' := by
  have htarget := h.standsFor_target hk ht
  cases hleads with
  | epsilon _ hlabel => exact ⟨_, .epsilon p hlabel, htarget⟩
  | textEnd hlabel => exact ⟨_, .textEnd hlabel, htarget⟩
  | textStart hlabel hpos => exact ⟨_, .textStart hlabel hpos, htarget⟩
  | any _ hlabel hlt => exact ⟨_, .any p hlabel hlt, htarget⟩
  | symbol _ c hlabel hc => exact ⟨_, .symbol p c hlabel hc, htarget⟩
  | outside _ c _ hlabel hc hout =>
    obtain ⟨k', hout', hk'⟩ := h.outside htarget hout
    exact ⟨k', .outside p c k' hlabel hc hout', hk'⟩

theorem of_leads (h : m.Splits origins m') (hk : StandsFor origins k s) (ht : t ∈ m.leaving s)
    (hleads : m'.Leads text (image origins k t) p (k', p')) :
    ∃ s', m.Leads text t p (s', p') ∧ StandsFor origins k' s' := by
  have htarget := h.standsFor_target hk ht
  cases hleads with
  | epsilon _ hlabel => exact ⟨_, .epsilon p hlabel, htarget⟩
  | textEnd hlabel => exact ⟨_, .textEnd hlabel, htarget⟩
  | textStart hlabel hpos => exact ⟨_, .textStart hlabel hpos, htarget⟩
  | any _ hlabel hlt => exact ⟨_, .any p hlabel hlt, htarget⟩
  | symbol _ c hlabel hc => exact ⟨_, .symbol p c hlabel hc, htarget⟩
  | outside _ c _ hlabel hc hout =>
    obtain ⟨s', hout', hs'⟩ := h.of_outside htarget hout
    exact ⟨s', .outside p c s' hlabel hc hout', hs'⟩

theorem moves (h : m.Splits origins m') (hk : StandsFor origins k s)
    (hmoves : m.Moves text (s, p) (s', p')) :
    ∃ k', m'.Moves text (k, p) (k', p') ∧ StandsFor origins k' s' := by
  obtain ⟨t, ht, rfl, hleads⟩ := hmoves
  have ht' : t ∈ m.leaving t.source := List.mem_filter.2 ⟨ht, decide_eq_true rfl⟩
  obtain ⟨k', hleads', hk'⟩ := h.leads hk ht' hleads
  have himage : image origins k t ∈ m'.leaving k := by
    rw [h.leaving_of_standsFor hk]
    exact List.mem_map_of_mem ht'
  exact ⟨k', ⟨_, (List.mem_filter.1 himage).1, rfl, hleads'⟩, hk'⟩

theorem of_moves (h : m.Splits origins m') (hk : StandsFor origins k s)
    (hmoves : m'.Moves text (k, p) (k', p')) :
    ∃ s', m.Moves text (s, p) (s', p') ∧ StandsFor origins k' s' := by
  obtain ⟨t', ht', hsource, hleads⟩ := hmoves
  have hleaving : t' ∈ m'.leaving k := List.mem_filter.2 ⟨ht', decide_eq_true hsource⟩
  rw [h.leaving_of_standsFor hk] at hleaving
  obtain ⟨t, ht, rfl⟩ := List.mem_map.1 hleaving
  obtain ⟨s', hleads', hs'⟩ := h.of_leads hk ht hleads
  obtain ⟨hmem, hstate⟩ := List.mem_filter.1 ht
  exact ⟨s', ⟨t, hmem, of_decide_eq_true hstate, hleads'⟩, hs'⟩

/-! ## Ways -/

theorem reach (h : m.Splits origins m') {v : Nat × Nat}
    (hmoves : ReflTransGen (m.Moves text) (0, p) v) :
    ∃ k, ReflTransGen (m'.Moves text) (0, p) (k, v.2) ∧ StandsFor origins k v.1 := by
  induction hmoves with
  | refl => exact ⟨0, .refl, h.standsFor_zero⟩
  | tail _ hstep ih =>
    obtain ⟨k, hk, hstands⟩ := ih
    obtain ⟨k', hstep', hstands'⟩ := h.moves hstands hstep
    exact ⟨k', hk.tail hstep', hstands'⟩

theorem of_reach (h : m.Splits origins m') {v : Nat × Nat}
    (hmoves : ReflTransGen (m'.Moves text) (0, p) v) :
    ∃ s, ReflTransGen (m.Moves text) (0, p) (s, v.2) ∧ StandsFor origins v.1 s := by
  induction hmoves with
  | refl => exact ⟨0, .refl, h.standsFor_zero⟩
  | tail _ hstep ih =>
    obtain ⟨s, hs, hstands⟩ := ih
    obtain ⟨s', hstep', hstands'⟩ := h.of_moves hstands hstep
    exact ⟨s', hs.tail hstep', hstands'⟩

/-- An expansion accepts just what its machine does. -/
theorem accepts_iff (h : m.Splits origins m') (text : List Char) (start stop : Nat) :
    m'.Accepts text start stop ↔ m.Accepts text start stop := by
  refine ⟨?_, ?_⟩
  · intro haccepts
    rcases haccepts with ⟨k, hfinal, hmoves⟩
    obtain ⟨s, hs, hstands⟩ := h.of_reach hmoves
    exact ⟨s, (h.isFinal_iff hstands).1 hfinal, hs⟩
  · intro haccepts
    rcases haccepts with ⟨s, hfinal, hmoves⟩
    obtain ⟨k, hk, hstands⟩ := h.reach hmoves
    exact ⟨k, (h.isFinal_iff hstands).2 hfinal, hk⟩

theorem flags_ne_nil (h : m.Splits origins m') : m'.flags ≠ [] := by
  rw [h.flags, ne_eq, List.map_eq_nil_iff]
  intro hnil
  have hfirst := h.first
  rw [hnil] at hfirst
  cases hfirst

end Machine.Splits

namespace Automaton

/-! ## Finding -/

variable {a d : Automaton} {m : Machine}

/-- The first machine of an expansion splits the first machine of the source, whether unit 0 is
expanded alone or with all units. -/
theorem exists_becomeExpansion_first (hsound : a.violation? = none)
    (hfirst : a.machines.head? = some m) (hstates : m.flags ≠ []) (target : Automaton)
    {unit : Option Nat} (hunit : unit = some 0 ∨ unit = none) :
    ∃ d origins m', target.becomeExpansion a unit = .done () d ∧ d.violation? = none ∧
      d.machines.head? = some m' ∧ m.Splits origins m' := by
  obtain ⟨rest, hmachines⟩ := List.head?_eq_some_iff.1 hfirst
  have hfits := fits_of_violation?_eq_none hsound m (List.mem_of_mem_head? hfirst)
  obtain ⟨origins, m', hexpand, hsplits⟩ := Machine.exists_expand hfits.closed hstates
  unfold becomeExpansion
  rcases hunit with rfl | rfl
  · have hu : a.machines[0]? = some m := by rw [← List.head?_eq_getElem?, hfirst]
    rw [expand_some hsound hu hexpand]
    refine ⟨_, origins, m', rfl, violation?_ofMachines ?_ _ _, ?_, hsplits⟩
    · simpa using hsplits.fits hfits
    · rw [machines_ofMachines]
      rfl
  · obtain ⟨ms', hms', hfits', hall⟩ := exists_expand_none hsound
    rw [hall]
    refine ⟨_, origins, m', rfl, violation?_ofMachines hfits' _ _, ?_, hsplits⟩
    rw [hmachines, List.map_cons, hexpand] at hms'
    cases ms' with
    | nil => cases hms'
    | cons m'' ms'' =>
      rw [List.map_cons, List.cons.injEq, Except.ok.injEq] at hms'
      rw [machines_ofMachines, hms'.1]
      rfl

/-- Whatever the two limits and with or without memories, an automaton and its expansion give the
same answer where both give one. Both do, once the limits are large enough. -/
theorem find_becomeExpansion (hsound : a.violation? = none) (hfirst : a.machines.head? = some m)
    (hstates : m.flags ≠ []) (target : Automaton) (text : String) (unit : Option Nat)
    (hunit : unit = some 0 ∨ unit = none) :
    ∃ d, target.becomeExpansion a unit = .done () d ∧
      (∀ config config' found found', a.find text config = .ok found →
        d.find text config' = .ok found' → found = found') ∧
      ∃ limit, ∀ config config', limit ≤ config.maxDepth → limit ≤ config'.maxDepth →
        ∃ found, a.find text config = .ok found ∧ d.find text config' = .ok found := by
  obtain ⟨d, origins, m', hd, hsound', hfirst', hsplits⟩ :=
    exists_becomeExpansion_first hsound hfirst hstates target hunit
  have hstates' := hsplits.flags_ne_nil
  have hagree : ∀ config config' found found', a.find text config = .ok found →
      d.find text config' = .ok found' → found = found' := by
    intro config config' found found' hfound hfound'
    have hleftmost := isLeftmostLongest_of_find hsound hfirst hstates hfound
    have hleftmost' := isLeftmostLongest_of_find hsound' hfirst' hstates' hfound'
    rw [IsLeftmostLongest.congr fun start _ => hsplits.accepts_iff text.toList start] at hleftmost'
    exact hleftmost.unique hleftmost'
  -- The sum of the two graphs is a limit that neither search comes to.
  refine ⟨d, hd, hagree, (m.flags.length + m'.flags.length) * (text.toList.length + 1), ?_⟩
  intro config config' hle hle'
  rw [Nat.add_mul] at hle hle'
  have hclosed := closed_of_violation?_eq_none hsound hfirst
  have hclosed' := closed_of_violation?_eq_none hsound' hfirst'
  obtain ⟨found, hfound⟩ := exists_ok_of_not_tooDeep hsound hfirst hstates
    (Machine.not_tooDeep hclosed hstates text.toList (by omega : _ ≤ config.maxDepth))
  obtain ⟨found', hfound'⟩ := exists_ok_of_not_tooDeep hsound' hfirst' hstates'
    (Machine.not_tooDeep hclosed' hstates' text.toList (by omega : _ ≤ config'.maxDepth))
  have heq := hagree config config' found found' hfound hfound'
  exact ⟨found, hfound, heq ▸ hfound'⟩

/-- Reads one character other than a and b. The marker leads to the exit twice, so that the
expansion has two states for the exit. -/
def neitherAorB : Machine where
  name := "neither"
  flags := [0, 0, 1]
  transitions := [{ source := 0, target := 1, input := some .notInSet },
    { source := 1, target := 2, input := some (.ofChar 'a') },
    { source := 1, target := 2, input := some (.ofChar 'b') }]

theorem find_becomeExpansion_neitherAorB :
    (ofMachines .acceptor [neitherAorB]).violation? = none ∧ neitherAorB.flags ≠ [] ∧
      ∃ d, (empty .transducer).becomeExpansion (ofMachines .acceptor [neitherAorB]) (some 0) =
          .done () d ∧
        (∀ config config' found found',
          (ofMachines .acceptor [neitherAorB]).find "bc" config = .ok found →
            d.find "bc" config' = .ok found' → found = found') ∧
        ∃ limit, ∀ config config', limit ≤ config.maxDepth → limit ≤ config'.maxDepth →
          ∃ found, (ofMachines .acceptor [neitherAorB]).find "bc" config = .ok found ∧
            d.find "bc" config' = .ok found :=
  ⟨by decide, by decide,
    find_becomeExpansion (by decide) rfl (by decide) (empty .transducer) "bc" (some 0) (Or.inl rfl)⟩

end Automaton

end WeightedAutomata
