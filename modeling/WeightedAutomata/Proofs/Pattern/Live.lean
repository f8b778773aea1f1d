-- Which states the rest of a pattern can still touch. A token adds arcs between new states and
-- the few that assembling keeps: the state that is reached, the entry of the last item, and the
-- entries of open groups. A state that is not among these when it is drawn is left alone for good.
import WeightedAutomata.Proofs.Pattern.Assembly

namespace WeightedAutomata

namespace Pattern

/-! ## Live states -/

/-- A state that arcs of later tokens can touch. -/
def Assembly.Live (s : Assembly) (state : Nat) : Prop :=
  state = s.state ∨ s.entry = some state ∨ ∃ position, (state, position) ∈ s.groups

namespace Reading

/-- A state that is live, or new among `n` states. -/
def LiveOrNew (r : Reading) (n state : Nat) : Prop :=
  r.assembly.Live state ∨ r.drawn.2.stateCount ≤ state ∧ state < n

/-- Reading on from `r` to `r'` has added arcs, all of them between states that were live or are
new, and no other state is live now. -/
structure Extends (r r' : Reading) (arcs : List Transition) : Prop where
  grows : r.drawn.2.stateCount ≤ r'.drawn.2.stateCount
  arcs_eq : r'.drawn.2.arcs.toList = r.drawn.2.arcs.toList ++ arcs
  source : ∀ t ∈ arcs, r.LiveOrNew r'.drawn.2.stateCount t.source
  target : ∀ t ∈ arcs, r.LiveOrNew r'.drawn.2.stateCount t.target
  live : ∀ state, r'.assembly.Live state → r.LiveOrNew r'.drawn.2.stateCount state

variable {r r' r'' : Reading} {arcs arcs' : List Transition} {n n' state : Nat}

theorem live_drawn (r : Reading) : r.assembly.Live r.drawn.1 := Or.inl rfl

theorem LiveOrNew.mono (hle : n ≤ n') (h : r.LiveOrNew n state) : r.LiveOrNew n' state :=
  h.imp_right fun hnew => ⟨hnew.1, hnew.2.trans_le hle⟩

/-- A state of a part that is drawn from a live state is live or new. -/
theorem LiveOrNew.of_owned {entry : Nat} (hentry : r.assembly.Live entry)
    (h : Owned entry r.drawn.2.stateCount n state) : r.LiveOrNew n state := by
  rcases h with rfl | hnew
  · exact Or.inl hentry
  · exact Or.inr hnew

/-- What is live or new behind `r'` is so behind `r`. -/
theorem Extends.liveOrNew (h : r.Extends r' arcs) (hle : r'.drawn.2.stateCount ≤ n)
    (hstate : r'.LiveOrNew n state) : r.LiveOrNew n state := by
  rcases hstate with hlive | ⟨hnew, hlt⟩
  · exact (h.live state hlive).mono hle
  · exact Or.inr ⟨h.grows.trans hnew, hlt⟩

theorem Extends.trans (h : r.Extends r' arcs) (h' : r'.Extends r'' arcs') :
    r.Extends r'' (arcs ++ arcs') where
  grows := h.grows.trans h'.grows
  arcs_eq := by rw [h'.arcs_eq, h.arcs_eq, List.append_assoc]
  source := by
    rw [List.forall_mem_append]
    refine ⟨fun t ht => (h.source t ht).mono h'.grows, ?_⟩
    exact fun t ht => h.liveOrNew h'.grows (h'.source t ht)
  target := by
    rw [List.forall_mem_append]
    refine ⟨fun t ht => (h.target t ht).mono h'.grows, ?_⟩
    exact fun t ht => h.liveOrNew h'.grows (h'.target t ht)
  live := fun state hlive => h.liveOrNew h'.grows (h'.live state hlive)

/-- A token that draws nothing only chooses among the live states. -/
theorem extends_of_drawn_eq (hdrawn : r'.drawn = r.drawn)
    (hlive : ∀ state, r'.assembly.Live state → r.assembly.Live state) : r.Extends r' [] where
  grows := by rw [hdrawn]
  arcs_eq := by rw [hdrawn, List.append_nil]
  source := List.forall_mem_nil _
  target := List.forall_mem_nil _
  live := fun state hstate => Or.inl (hlive state hstate)

theorem Extends.refl (r : Reading) : r.Extends r [] := extends_of_drawn_eq rfl fun _ => id

/-! ## One token -/

theorem drawn_add_atom (r : Reading) (a : Atom) :
    (r.add (.atom a)).drawn = a.draw r.drawn.1 r.drawn.2 :=
  drawnOf_cons r.groups (.atom a) r.items

/-- Behind an atom its exit is live, and so are states that were live before it. -/
theorem live_add_atom {a : Atom} (h : (r.add (.atom a)).assembly.Live state) :
    state = (r.add (.atom a)).drawn.1 ∨ r.assembly.Live state := by
  rcases h with hstate | hentry | hgroup
  · exact Or.inl hstate
  · exact Or.inr (Or.inl (Option.some.inj hentry).symm)
  · exact Or.inr (Or.inr (Or.inr hgroup))

theorem exists_extends_add_atom (r : Reading) (a : Atom) :
    ∃ arcs, r.Extends (r.add (.atom a)) arcs := by
  have hstate : r.drawn.1 < r.drawn.2.stateCount := drawnOf_lt r.groups r.items
  obtain ⟨arcs, hdrawing⟩ := a.exists_drawing hstate
  have hadd := r.drawn_add_atom a
  rw [← hadd] at hdrawing
  have howned : ∀ {state}, Owned r.drawn.1 r.drawn.2.stateCount
      (r.add (.atom a)).drawn.2.stateCount state →
      r.LiveOrNew (r.add (.atom a)).drawn.2.stateCount state := LiveOrNew.of_owned r.live_drawn
  refine ⟨arcs, hdrawing.drawn.grows, hdrawing.arcs_eq,
    fun t ht => howned (hdrawing.drawn.source t ht),
    fun t ht => howned (hdrawing.drawn.target t ht), ?_⟩
  intro state hlive
  rcases live_add_atom hlive with rfl | hlive
  · exact howned hdrawing.drawn.exit_owned
  · exact Or.inl hlive

theorem extends_opening (r : Reading) (position : Nat) :
    r.Extends (r.read ⟨position, .opening⟩) [] := by
  refine extends_of_drawn_eq rfl ?_
  intro state hlive
  rcases hlive with rfl | hentry | ⟨position', hgroup⟩
  · exact r.live_drawn
  · cases hentry
  · rcases List.mem_cons.1 hgroup with heq | hgroup
    · exact Or.inl (Prod.mk.inj heq).1
    · exact Or.inr (Or.inr ⟨position', hgroup⟩)

/-- Where a group closes, its entry state becomes the entry of the item that it is. -/
theorem extends_closing (group : OpenGroup) (groups : List OpenGroup) (items : List Expr)
    (quantifiable : Bool) (position : Nat) :
    Extends ⟨group :: groups, items, quantifiable⟩
      (read ⟨group :: groups, items, quantifiable⟩ ⟨position, .closing⟩) [] := by
  refine extends_of_drawn_eq (drawnOf_closed group groups items) ?_
  intro state hlive
  rcases hlive with hstate | hentry | ⟨position', hgroup⟩
  · exact Or.inl (hstate.trans (congrArg Prod.fst (drawnOf_closed group groups items)))
  · obtain rfl := Option.some.inj hentry
    exact Or.inr (Or.inr ⟨group.position, List.mem_cons_self⟩)
  · exact Or.inr (Or.inr ⟨position', List.mem_cons_of_mem _ hgroup⟩)

/-- A quantifier goes between the entry of the last item, the state that is reached, and its own
exit. -/
theorem exists_extends_quantified (groups : List OpenGroup) (e : Expr) (items : List Expr)
    (q : Quantifier) (position : Nat) :
    ∃ arcs, Extends ⟨groups, e :: items, true⟩
      (read ⟨groups, e :: items, true⟩ ⟨position, .quantifier q⟩) arcs := by
  have hquantified := drawnOf_quantified groups q e items
  have hends := q.ends_draw (drawnOf groups items).1 (drawnOf groups (e :: items)).1
    (drawnOf groups (e :: items)).2
  have harcs := q.toList_arcs_draw (drawnOf groups items).1 (drawnOf groups (e :: items)).1
    (drawnOf groups (e :: items)).2
  rw [← hquantified] at hends harcs
  have hjoint : ∀ i : Joint, LiveOrNew ⟨groups, e :: items, true⟩
      (drawnOf groups (.quantified q e :: items)).2.stateCount
      (i.state (drawnOf groups items).1 (drawnOf groups (e :: items)).1
        (drawnOf groups (.quantified q e :: items)).1) := by
    intro i
    cases i with
    | entry => exact Or.inl (Or.inr (Or.inl rfl))
    | middle => exact Or.inl (live_drawn _)
    | exit =>
      rcases hends with ⟨-, hexit, -⟩ | ⟨-, hexit, hcount⟩
      · exact Or.inl (Or.inl hexit)
      · refine Or.inr ⟨Nat.le_of_eq hexit.symm, ?_⟩
        rw [hcount, Joint.state, hexit]
        exact Nat.lt_succ_self _
  refine ⟨_, ?_, harcs, ?_, ?_, ?_⟩
  · change (drawnOf groups (e :: items)).2.stateCount ≤
      (drawnOf groups (.quantified q e :: items)).2.stateCount
    unfold Quantifier.Ends at hends
    omega
  · intro t ht
    obtain ⟨-, -, i, -, -, hsource, -⟩ := Quantifier.skips_of_mem_arcs ht
    exact hsource ▸ hjoint i
  · intro t ht
    obtain ⟨-, -, -, k, -, -, htarget⟩ := Quantifier.skips_of_mem_arcs ht
    exact htarget ▸ hjoint k
  · intro state hlive
    rcases hlive with rfl | hentry | hgroup
    · exact hjoint .exit
    · cases hentry
    · exact Or.inl (Or.inr (Or.inr hgroup))

/-- A token adds arcs between live and new states. -/
theorem exists_extends_read (r : Reading) (x : Placed) : ∃ arcs, r.Extends (r.read x) arcs := by
  obtain ⟨position, token⟩ := x
  cases token with
  | atom a => exact r.exists_extends_add_atom a
  | opening => exact ⟨[], r.extends_opening position⟩
  | closing =>
    obtain ⟨groups, items, quantifiable⟩ := r
    cases groups with
    | nil => exact exists_extends_add_atom _ (.char ')')
    | cons group groups => exact ⟨[], extends_closing group groups items quantifiable position⟩
  | quantifier q =>
    obtain ⟨groups, items, quantifiable⟩ := r
    cases quantifiable with
    | false => exact exists_extends_add_atom _ (.char q.char)
    | true =>
      cases items with
      | nil => exact exists_extends_add_atom _ (.char q.char)
      | cons e items => exact exists_extends_quantified groups e items q position

/-! ## Whole patterns -/

/-- So do any number of tokens. -/
theorem exists_extends_foldl (placed : List Placed) (r : Reading) :
    ∃ arcs, r.Extends (placed.foldl read r) arcs := by
  induction placed generalizing r with
  | nil => exact ⟨[], .refl r⟩
  | cons x placed ih =>
    obtain ⟨arcs, h⟩ := r.exists_extends_read x
    obtain ⟨arcs', h'⟩ := ih (r.read x)
    exact ⟨arcs ++ arcs', h.trans h'⟩

/-- At the start of a pattern only the start state is live. -/
theorem liveOrNew_start_iff (hn : 0 < n) : LiveOrNew {} n state ↔ state < n := by
  have hstart : (Reading.assembly {}).Live state ↔ state = 0 := by
    refine ⟨?_, Or.inl⟩
    rintro (hstate | hentry | ⟨position, hgroup⟩)
    · exact hstate
    · cases hentry
    · cases hgroup
  have hcount : (Reading.drawn {}).2.stateCount = 1 := rfl
  rw [LiveOrNew, hstart, hcount]
  omega

/-- Tokens that are read from the start on draw arcs between their states, and live states are
among these. -/
structure Bounded (r : Reading) : Prop where
  source : ∀ t ∈ r.drawn.2.arcs.toList, t.source < r.drawn.2.stateCount
  target : ∀ t ∈ r.drawn.2.arcs.toList, t.target < r.drawn.2.stateCount
  live : ∀ state, r.assembly.Live state → state < r.drawn.2.stateCount

theorem bounded_foldl (placed : List Placed) : (placed.foldl read {}).Bounded := by
  obtain ⟨arcs, h⟩ := exists_extends_foldl placed {}
  have hpos : 0 < (placed.foldl read {}).drawn.2.stateCount :=
    Nat.lt_of_lt_of_le Nat.one_pos h.grows
  have harcs : (placed.foldl read {}).drawn.2.arcs.toList = arcs := h.arcs_eq
  refine ⟨?_, ?_, ?_⟩
  · intro t ht
    exact (liveOrNew_start_iff hpos).1 (h.source t (harcs ▸ ht))
  · intro t ht
    exact (liveOrNew_start_iff hpos).1 (h.target t (harcs ▸ ht))
  · intro state hlive
    exact (liveOrNew_start_iff hpos).1 (h.live state hlive)

end Reading

end Pattern

end WeightedAutomata
