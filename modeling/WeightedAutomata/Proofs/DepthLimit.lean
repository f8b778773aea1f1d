-- When finding comes to its limit. A plain search goes along every trail from a start until one
-- of them is too long, and a search with a memory only along some of them. So a trail decides
-- when the plain search fails, and the memory makes no search fail.
import WeightedAutomata.Proofs.Leftmost
import WeightedAutomata.Proofs.Search.Limit

namespace WeightedAutomata

/-- From some start there is a trail of `limit + 1` nodes, and no start before it leads to a
final state. -/
def Machine.TooDeep (m : Machine) (text : List Char) (limit : Nat) : Prop :=
  ∃ start < text.length, (∀ before < start, ∀ stop, ¬ m.Accepts text before stop) ∧
    ∃ path, m.Trail text (0, start) path ∧ path.length = limit + 1

/-- There are no more nodes on a trail than the machine has states at all positions. -/
theorem Machine.not_tooDeep {m : Machine} (hm : m.Closed) (hstates : m.flags ≠ [])
    (text : List Char) {limit : Nat} (hle : m.flags.length * (text.length + 1) ≤ limit) :
    ¬ m.TooDeep text limit := by
  intro h
  rcases h with ⟨start, hlt, -, path, htrail, hlength⟩
  have := htrail.length_le hm (List.length_pos_iff.2 hstates) (Nat.le_of_lt hlt)
  omega

namespace Search

variable {s : Subject} {m : Machine} {text : List Char} {config : Config}

theorem tooDeep_of_foundFirst {error : Error} (hs : s.Presents m text)
    (h : FoundFirst s config text.length (.error error)) : m.TooDeep text config.maxDepth := by
  obtain ⟨-, start, hlt, hquiet, hdeep⟩ := h
  refine ⟨start, hlt, ?_, (hs.deep_iff (Nat.le_of_lt hlt) _).1 hdeep⟩
  intro before hbefore stop haccepts
  have hle : before ≤ text.length := Nat.le_of_lt (Nat.lt_trans hbefore hlt)
  exact (hquiet before hbefore).no_span stop ((hs.spans_iff hle stop).2 haccepts)

/-- Without a memory an answer means that all trails before it were short enough. -/
theorem not_tooDeep_of_foundFirst {found : Option Match} (hs : s.Presents m text)
    (hplain : config.memoize = false) (h : FoundFirst s config text.length (.ok found)) :
    ¬ m.TooDeep text config.maxDepth := by
  intro h
  rcases h with ⟨start, hlt, hbefore, hpath⟩
  have hdeep := (hs.deep_iff (Nat.le_of_lt hlt) _).2 hpath
  rcases found with _ | r
  · exact (h start hlt).no_trail hplain hdeep
  · obtain ⟨hr, hquiet, hspan, -, hshort⟩ := h
    rcases Nat.lt_trichotomy start r.start with hstart | heq | hstart
    · exact (hquiet start hstart).no_trail hplain hdeep
    · exact hshort hplain (heq ▸ hdeep)
    · exact hbefore r.start hstart r.stop ((hs.spans_iff (Nat.le_of_lt hr) _).1 hspan)

end Search

namespace Automaton

variable {a : Automaton} {m : Machine}

/-- Finding fails only where a trail is too long. -/
theorem tooDeep_of_find (hsound : a.violation? = none) (hfirst : a.machines.head? = some m)
    (hstates : m.flags ≠ []) {text : String} {config : Search.Config} {halt : Halt}
    (h : a.find text config = .error halt) : m.TooDeep text.toList config.maxDepth := by
  obtain ⟨s, -, hs, hanswer, hfind⟩ := exists_foundFirst hsound hfirst hstates text config
  rw [hfind] at h
  split at h
  · rename_i error herror
    rw [herror] at hanswer
    exact Search.tooDeep_of_foundFirst hs hanswer
  · cases h

/-- Without a memory finding fails exactly where a trail is too long. -/
theorem plain_depthExceeded_iff (hsound : a.violation? = none)
    (hfirst : a.machines.head? = some m) (hstates : m.flags ≠ []) (text : String) (limit : Nat) :
    a.find text ⟨false, limit⟩ = .error (.refused (.depthExceeded limit)) ↔
      m.TooDeep text.toList limit := by
  refine ⟨?_, ?_⟩
  · exact tooDeep_of_find hsound hfirst hstates
  · intro hdeep
    obtain ⟨s, -, hs, hanswer, hfind⟩ :=
      exists_foundFirst hsound hfirst hstates text ⟨false, limit⟩
    rw [hfind]
    split
    · rename_i error herror
      rw [herror] at hanswer
      rw [hanswer.1]
    · rename_i found hfound
      rw [hfound] at hanswer
      exact absurd hdeep (Search.not_tooDeep_of_foundFirst hs rfl hanswer)

theorem exists_ok_of_not_tooDeep (hsound : a.violation? = none)
    (hfirst : a.machines.head? = some m) (hstates : m.flags ≠ []) {text : String}
    {config : Search.Config} (h : ¬ m.TooDeep text.toList config.maxDepth) :
    ∃ found, a.find text config = .ok found := by
  rcases ok_or_depthExceeded_of_find hsound hfirst hstates text config with hok | herror
  · exact hok
  · exact absurd (tooDeep_of_find hsound hfirst hstates herror) h

/-- Whatever the plain search finds, the search with a memory finds under the same limit. -/
theorem cached_of_plain (hsound : a.violation? = none) (hfirst : a.machines.head? = some m)
    (hstates : m.flags ≠ []) {text : String} {limit : Nat} {found : Option Match}
    (h : a.find text ⟨false, limit⟩ = .ok found) : a.find text ⟨true, limit⟩ = .ok found := by
  have hshort : ¬ m.TooDeep text.toList limit := by
    intro hdeep
    rw [(plain_depthExceeded_iff hsound hfirst hstates text limit).2 hdeep] at h
    cases h
  obtain ⟨found', hfound'⟩ :
      ∃ found', a.find text ⟨true, limit⟩ = .ok found' :=
    exists_ok_of_not_tooDeep hsound hfirst hstates hshort
  rw [hfound', (isLeftmostLongest_of_find hsound hfirst hstates hfound').unique
    (isLeftmostLongest_of_find hsound hfirst hstates h)]

theorem find_of_le (hsound : a.violation? = none) (hfirst : a.machines.head? = some m)
    (hstates : m.flags ≠ []) {text : String} {memoize : Bool} {limit limit' : Nat}
    (hle : limit ≤ limit') {found : Option Match}
    (h : a.find text ⟨memoize, limit⟩ = .ok found) :
    a.find text ⟨memoize, limit'⟩ = .ok found := by
  obtain ⟨s, hs, -⟩ := exists_subject hsound hfirst text
  rw [find_eq_of_subject hsound hfirst hstates hs] at h ⊢
  rcases hfound : Search.find s ⟨memoize, limit⟩ with error | found'
  · rw [hfound] at h
    cases h
  · rw [hfound] at h
    have hraised : Search.find s ⟨memoize, limit'⟩ = .ok found' :=
      Search.find_mono hle hfound
    rw [hraised]
    exact h

/-- The limit is exceeded without a memory exactly where a trail from a start that is searched
is too long for it. A memory makes no search fail and changes no answer, a limit as large as
the graph is never exceeded, and a larger limit keeps every answer. -/
theorem depth_limit_exact (hsound : a.violation? = none) (hfirst : a.machines.head? = some m)
    (hstates : m.flags ≠ []) (text : String) (limit : Nat) :
    (a.find text ⟨false, limit⟩ = .error (.refused (.depthExceeded limit)) ↔
      ∃ start < text.toList.length,
        (∀ before < start, ∀ stop, ¬ m.Accepts text.toList before stop) ∧
          ∃ path, m.Trail text.toList (0, start) path ∧ path.length = limit + 1) ∧
    (a.find text ⟨true, limit⟩ = .error (.refused (.depthExceeded limit)) →
      a.find text ⟨false, limit⟩ = .error (.refused (.depthExceeded limit))) ∧
    (∀ found, a.find text ⟨false, limit⟩ = .ok found → a.find text ⟨true, limit⟩ = .ok found) ∧
    (m.flags.length * (text.toList.length + 1) ≤ limit →
      ∀ memoize, ∃ found, a.find text ⟨memoize, limit⟩ = .ok found) ∧
    ∀ memoize limit', limit ≤ limit' → ∀ found,
      a.find text ⟨memoize, limit⟩ = .ok found → a.find text ⟨memoize, limit'⟩ = .ok found := by
  have hplain := plain_depthExceeded_iff hsound hfirst hstates text limit
  refine ⟨hplain, ?_, ?_, ?_, ?_⟩
  · intro hcached
    exact hplain.2 (tooDeep_of_find hsound hfirst hstates hcached)
  · intro found hfound
    exact cached_of_plain hsound hfirst hstates hfound
  · intro hle memoize
    have hclosed := closed_of_violation?_eq_none hsound hfirst
    exact exists_ok_of_not_tooDeep hsound hfirst hstates
      (Machine.not_tooDeep hclosed hstates text.toList hle)
  · intro memoize limit' hle found hfound
    exact find_of_le hsound hfirst hstates hle hfound

theorem depth_limit_exact_loopThenA :
    (ofMachines .acceptor [loopThenA]).violation? = none ∧ loopThenA.flags ≠ [] ∧
      ∀ memoize, ∃ found, (ofMachines .acceptor [loopThenA]).find "ba" ⟨memoize, 6⟩ = .ok found :=
  ⟨by decide, by decide,
    (depth_limit_exact (by decide) rfl (by decide) "ba" 6).2.2.2.1 (by decide)⟩

end Automaton

end WeightedAutomata
