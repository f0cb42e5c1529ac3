import RuleNetwork.CommandLine.Report
import RuleNetwork.Proofs.CommandLine.StateTexts
import RuleNetwork.Proofs.Queries

/-!
# What a run prints

A run on named states prints its whole report, or nothing but the first name that is not that of a
state.  There is nothing in between.  The names are read before anything is computed.  What is then
computed is never refused, because the network is valid and the names are those of its states, and
because the rules that are named where the network is printed are its own.

**Results.**
* `prettyState_eq_ok`: a state is printed if the rules that are named there exist.
* `reportLines_eq_ok`: the report on states of the network is never refused.
* `analyse_of_refused`, `analyse_of_read`: the outcome for names of which one is refused, and for
  names of states.
* `answeredBy_analyse`: which names are accepted, and what is printed for them.
* `run_states`: the same for a command line from which the names have been read.
* `analyse_states`: all of this, with numbers of limited size.
-/

namespace RuleNetwork

/-- The rule that is named where a transition of this kind is printed. -/
def TransitionKind.printedRule? : TransitionKind → Option RuleId
  | .call rule _ | .predicate rule _ _ | .action rule _ => some rule
  | _ => none

theorem exists_bind_eq_ok
    {α β : Type} {x : Except Fault α} {f : α → Except Fault β}
    (hx : ∃ a, x = .ok a)
    (hf : ∀ a, ∃ b, f a = .ok b) :
    ∃ b, x >>= f = .ok b := by
  obtain ⟨a, rfl⟩ := hx
  exact hf a

theorem exists_mapM_eq_ok
    {α β : Type} {f : α → Except Fault β} {xs : List α}
    (h : ∀ x ∈ xs, ∃ y, f x = .ok y) :
    ∃ ys, xs.mapM f = .ok ys := by
  induction xs with
  | nil => exact ⟨[], rfl⟩
  | cons x xs ih =>
      obtain ⟨hx, hxs⟩ := List.forall_mem_cons.mp h
      rw [List.mapM_cons]
      exact exists_bind_eq_ok hx fun _ => exists_bind_eq_ok (ih hxs) fun _ => ⟨_, rfl⟩

theorem forall₂_trans
    {α β γ : Type} {R : α → β → Prop} {S : β → γ → Prop}
    {xs : List α} {ys : List β} {zs : List γ}
    (hxy : List.Forall₂ R xs ys)
    (hyz : List.Forall₂ S ys zs) :
    List.Forall₂ (fun x z => ∃ y, R x y ∧ S y z) xs zs := by
  induction hxy generalizing zs with
  | nil =>
      cases hyz
      exact .nil
  | cons hr _ ih =>
      cases hyz with
      | cons hs hrest => exact .cons ⟨_, hr, hs⟩ (ih hrest)

namespace Network

variable (net : Network)

/-- The network has the rules that are named where the state is printed. -/
def PrintsRules (s : State) : Prop :=
  s.rule.index < net.rules.length ∧
    ∀ t ∈ s.transitions, ∀ rule ∈ t.kind.printedRule?, rule.index < net.rules.length

instance (s : State) : Decidable (net.PrintsRules s) := inferInstanceAs (Decidable (_ ∧ _))

variable {net}

theorem rule_eq_ok
    {rule : RuleId}
    (h : rule.index < net.rules.length) :
    ∃ info, net.rule rule = .ok info := by
  unfold Network.rule elementAt
  rw [List.getElem?_eq_getElem h]
  exact ⟨_, rfl⟩

theorem prettyKind_eq_ok
    {kind : TransitionKind}
    (h : ∀ rule ∈ kind.printedRule?, rule.index < net.rules.length) :
    ∃ text, net.prettyKind kind = .ok text := by
  cases kind with
  | call rule next => exact exists_bind_eq_ok (rule_eq_ok (h rule rfl)) fun _ => ⟨_, rfl⟩
  | predicate rule index ctxDependent =>
      exact exists_bind_eq_ok (rule_eq_ok (h rule rfl)) fun _ => ⟨_, rfl⟩
  | action rule index => exact exists_bind_eq_ok (rule_eq_ok (h rule rfl)) fun _ => ⟨_, rfl⟩
  | _ => exact ⟨_, rfl⟩

/-- A state is printed if the rules that are named there exist. -/
theorem prettyState_eq_ok
    {s : State}
    (h : net.PrintsRules s) :
    ∃ text, net.prettyState s = .ok text := by
  have htransitions : ∀ t ∈ s.transitions, ∃ text, net.prettyTransition t = .ok text :=
    fun t ht => exists_bind_eq_ok (prettyKind_eq_ok (h.2 t ht)) fun _ => ⟨_, rfl⟩
  exact exists_bind_eq_ok (rule_eq_ok h.1) fun _ =>
    exists_bind_eq_ok (exists_mapM_eq_ok htransitions) fun _ => ⟨_, rfl⟩

end Network

namespace CommandLine

/-- The context in which the follow sets of a request are computed. -/
def Request.context (request : Request) : Context :=
  if request.has .withinRule then .anyCaller else .noCaller

/-- The policy with which the follow sets of a request are computed. -/
def Request.policy (request : Request) : Policy :=
  ⟨!request.has .hidePredicates, !request.has .omitEnd⟩

/-- The line for the follow set of a state. -/
def IsFollowLine (net : Network) (request : Request) (s : StateId) (line : String) : Prop :=
  ∃ regs, (net.explore request.policy none s request.context).result = .ok regs ∧
    line = s!"  {s.text}: {net.prettySet regs.found}"

/-- Computes the line for the follow set of a state. -/
def followLine (net : Network) (policy : Policy) (c : Context) (s : StateId) : Traced String := do
  let regs ← net.explore policy none s c
  return s!"  {s.text}: {net.prettySet regs.found}"

section Report

variable {net : Network} {request : Request} {states : List StateId}

theorem networkLines_eq_ok
    (hprints : ∀ s ∈ net.states, net.PrintsRules s) :
    ∃ lines, (networkLines net).result = .ok lines := by
  have hstates : ∀ s ∈ net.states,
      ∃ text, (Traced.quietly (net.prettyState s)).result = .ok text :=
    fun s hs => Network.prettyState_eq_ok (hprints s hs)
  obtain ⟨texts, htexts⟩ := Traced.exists_mapM_eq_ok hstates
  exact ⟨_, Traced.result_bind_eq_ok.mpr ⟨texts, htexts, rfl⟩⟩

theorem decisionLines_eq_ok
    (hbuilt : net.Built)
    (hvalid : net.IsValid) :
    ∃ lines, (decisionLines net).result = .ok lines := by
  have hparts : ∀ s ∈ net.states.filter (fun s => decide (1 < s.transitions.length)),
      ∃ part, (do
        let lookahead ← net.decision s.id
        return (s.id.text ++ ":") :: alternativeLines net lookahead : Traced (List String)).result =
          .ok part := by
    intro s hs
    obtain ⟨n, hn⟩ := List.getElem?_of_mem (List.mem_filter.mp hs).1
    have hid : s.id = .state n := hbuilt.coherent.id n s hn
    have hknown : net.hasState s.id = true := by
      rw [hid]
      exact Network.hasState_iff.mpr ⟨s, hn⟩
    obtain ⟨lookahead, hlookahead⟩ := Network.decision_eq_ok hvalid hknown
    exact ⟨_, Traced.result_bind_eq_ok.mpr ⟨lookahead, hlookahead, rfl⟩⟩
  obtain ⟨parts, hresult⟩ := Traced.exists_mapM_eq_ok hparts
  exact ⟨_, Traced.result_bind_eq_ok.mpr ⟨parts, hresult, rfl⟩⟩

variable (request) in
/-- The follow sets of states of the network are listed state by state. -/
theorem followLines_eq_ok
    (hvalid : net.IsValid)
    (hstates : ∀ s ∈ states, net.hasState s = true) :
    ∃ lines,
      (followLines net request.policy request.context states).result =
        .ok ("" :: s!"follow sets in {request.context.text}:" :: lines) ∧
      List.Forall₂ (IsFollowLine net request) states lines := by
  have hknows : net.Knows request.context := by
    unfold Request.context
    split
    · exact .anyCaller
    · exact .noCaller
  have hlines : ∀ s ∈ states,
      ∃ line, (followLine net request.policy request.context s).result = .ok line := by
    intro s hs
    obtain ⟨regs, hregs⟩ := Query.closure_eq_ok (q := ⟨net, none, request.policy⟩) hvalid
      (hstates s hs) hknows .fresh
    exact ⟨_, Traced.result_bind_eq_ok.mpr ⟨regs, hregs, rfl⟩⟩
  obtain ⟨lines, hresult⟩ := Traced.exists_mapM_eq_ok hlines
  refine ⟨lines, Traced.result_bind_eq_ok.mpr ⟨lines, hresult, rfl⟩, ?_⟩
  refine (Traced.forall₂_of_mapM_eq_ok hresult).imp ?_
  intro s line hline
  obtain ⟨regs, hregs, hline⟩ := Traced.result_bind_eq_ok.mp hline
  cases hline
  exact ⟨regs, hregs, rfl⟩

/-- The report on named states of the network is never refused. -/
theorem reportLines_eq_ok
    (hbuilt : net.Built)
    (hvalid : net.IsValid)
    (hprints : ∀ s ∈ net.states, net.PrintsRules s)
    (hnamed : request.states ≠ [])
    (hstates : ∀ s ∈ states, net.hasState s = true) :
    ∃ networkPart decisionPart followPart,
      (networkLines net).result = .ok networkPart ∧
      (decisionLines net).result = .ok decisionPart ∧
      List.Forall₂ (IsFollowLine net request) states followPart ∧
      (reportLines net request states).result =
        .ok (networkPart ++ decisionPart ++
          "" :: s!"follow sets in {request.context.text}:" :: followPart) := by
  obtain ⟨networkPart, hnetwork⟩ := networkLines_eq_ok hprints
  obtain ⟨decisionPart, hdecision⟩ := decisionLines_eq_ok hbuilt hvalid
  obtain ⟨followPart, hfollow, hlines⟩ := followLines_eq_ok request hvalid hstates
  refine ⟨networkPart, decisionPart, followPart, hnetwork, hdecision, hlines, ?_⟩
  have hnonempty : request.states.isEmpty = false := by simpa using hnamed
  unfold reportLines
  rw [hnonempty]
  exact Traced.result_bind_eq_ok.mpr ⟨networkPart, hnetwork,
    Traced.result_bind_eq_ok.mpr ⟨decisionPart, hdecision,
      Traced.result_bind_eq_ok.mpr ⟨_, hfollow, rfl⟩⟩⟩

/-- A name that is not that of a state ends the run before anything is printed. -/
theorem analyse_of_refused
    {text : String}
    (hvalid : net.IsValid)
    (h : readStates net request.states = .error text) :
    analyse net request = ⟨1, "", unlines [s!"error: `{text}` is not a state of the network"]⟩ := by
  unfold analyse
  rw [if_neg (not_not.mpr hvalid), h]
  simp [failure, toString, ← String.append_assoc]

theorem analyse_of_read
    {lines : List String}
    (hvalid : net.IsValid)
    (h : readStates net request.states = .ok states)
    (hreport : (reportLines net request states).result = .ok lines) :
    (analyse net request).code = 0 ∧ (analyse net request).stdout = unlines lines := by
  unfold analyse
  rw [if_neg (not_not.mpr hvalid), h]
  simp [hreport]

end Report

open StatementGrammar

theorem printsRules_network : ∀ s ∈ network.states, network.PrintsRules s := by decide

theorem length_network : network.states.length = 30 := by decide

/-- What a request on some names of states has to be answered with. -/
structure Request.AnsweredBy (request : Request) (outcome : Outcome) : Prop where
  /-- It succeeds just if each name is that of a state. -/
  accepted : outcome.code = 0 ↔ ∀ text ∈ request.states, NamesState network text
  /-- It prints the network, the decisions, and a line for each name, in their order. -/
  printed : (∀ text ∈ request.states, NamesState network text) →
    ∃ networkPart decisionPart followPart,
      (networkLines network).result = .ok networkPart ∧
      (decisionLines network).result = .ok decisionPart ∧
      List.Forall₂
        (fun text line => ∃ n, IsStateText text n ∧ IsFollowLine network request (.state n) line)
        request.states followPart ∧
      outcome.stdout =
        unlines (networkPart ++ decisionPart ++
          "" :: s!"follow sets in {request.context.text}:" :: followPart)
  /-- Or it prints nothing, and its only message names the first name that is not that of a state. -/
  refused : (¬ ∀ text ∈ request.states, NamesState network text) →
    ∃ before text after, request.states = before ++ text :: after ∧
      (∀ known ∈ before, NamesState network known) ∧ ¬ NamesState network text ∧
      outcome = ⟨1, "", unlines [s!"error: `{text}` is not a state of the network"]⟩

section Requests

variable {request : Request} {states : List StateId}

/-- Names that are read are those of states of the network. -/
theorem namesState_of_read
    (h : List.Forall₂ (fun text s => readState network text = some s) request.states states) :
    (∀ text ∈ request.states, NamesState network text) ∧
      ∀ s ∈ states, network.hasState s = true := by
  refine ⟨?_, ?_⟩
  · intro text htext
    obtain ⟨s, _, hs⟩ := exists_mem_of_forall₂ h htext
    obtain ⟨n, hn, hlt, _⟩ := readState_eq_some_iff.mp hs
    exact ⟨n, hn, hlt⟩
  · intro s hs
    obtain ⟨text, _, htext⟩ := exists_mem_of_forall₂ h.flip hs
    obtain ⟨n, _, hlt, rfl⟩ := readState_eq_some_iff.mp htext
    exact Network.hasState_iff.mpr ⟨_, List.getElem?_eq_getElem hlt⟩

theorem answeredBy_of_refused
    {text : String}
    (h : readStates network request.states = .error text) :
    request.AnsweredBy (analyse network request) := by
  obtain ⟨before, after, hsplit, hbefore, htext⟩ := first_of_readStates_eq_error h
  have hnot : ¬ ∀ text ∈ request.states, NamesState network text :=
    fun hall => htext (hall text (by simp [hsplit]))
  rw [analyse_of_refused isValid_network h]
  refine ⟨⟨?_, fun hall => absurd hall hnot⟩, fun hall => absurd hall hnot,
    fun _ => ⟨before, text, after, hsplit, hbefore, htext, rfl⟩⟩
  intro hcode
  cases hcode

theorem answeredBy_of_read
    (hnamed : request.states ≠ [])
    (h : readStates network request.states = .ok states) :
    request.AnsweredBy (analyse network request) := by
  have hread := forall₂_of_readStates_eq_ok h
  obtain ⟨hnames, hknown⟩ := namesState_of_read hread
  obtain ⟨networkPart, decisionPart, followPart, hnetwork, hdecision, hfollow, hreport⟩ :=
    reportLines_eq_ok built_network isValid_network printsRules_network hnamed hknown
  obtain ⟨hcode, hstdout⟩ := analyse_of_read isValid_network h hreport
  refine ⟨⟨fun _ => hnames, fun _ => hcode⟩, fun _ => ?_, fun hnot => absurd hnames hnot⟩
  refine ⟨networkPart, decisionPart, followPart, hnetwork, hdecision, ?_, hstdout⟩
  refine (forall₂_trans hread hfollow).imp ?_
  rintro text line ⟨s, hs, hline⟩
  obtain ⟨n, hn, _, rfl⟩ := readState_eq_some_iff.mp hs
  exact ⟨n, hn, hline⟩

theorem answeredBy_analyse
    (hnamed : request.states ≠ []) :
    request.AnsweredBy (analyse network request) := by
  cases h : readStates network request.states with
  | error text => exact answeredBy_of_refused h
  | ok states => exact answeredBy_of_read hnamed h

theorem run_of_read
    {arguments : List String}
    (h : Command.read arguments = .analyse request)
    (author : Option String) :
    run arguments author = analyse network request := by
  unfold run
  rw [h]

/-- A run on a command line answers the request that is read from it. -/
theorem run_states
    {arguments : List String}
    (hread : Command.read arguments = .analyse request)
    (hnamed : request.states ≠ [])
    (author : Option String) :
    request.AnsweredBy (run arguments author) := by
  rw [run_of_read hread author]
  exact answeredBy_analyse hnamed

end Requests

/-- **A request on named states accepts the names of states, and refuses anything else as a whole.**
It succeeds just if each of the names is that of a state: letters `s`, an optional plus sign, and
digits of a value below the number of states.  It then prints the network, the decisions, and one
line for each name, in their order, with the follow set of its state.  Otherwise it ends with code 1
and prints nothing, and its only message names the first of the names that is not that of a state.
That is so for any flags, and for any command line from which the request is read.  A limit on the
numbers that are read makes no difference, as long as it is not below the number of states. -/
theorem analyse_states
    (request : Request)
    (hnamed : request.states ≠ []) :
    request.AnsweredBy (analyse network request) ∧
    (∀ arguments author, Command.read arguments = .analyse request →
      run arguments author = analyse network request) ∧
    ∀ limit text, network.states.length ≤ limit →
      readStateWithin limit network text = readState network text := by
  refine ⟨answeredBy_analyse hnamed, ?_, ?_⟩
  · intro arguments author hread
    exact run_of_read hread author
  · intro limit text hle
    exact readStateWithin_eq hle text

/-- Letters, a plus sign and leading zeros do not matter. -/
theorem namesState_leadingZeros : NamesState network "ss+007" := by
  refine ⟨7, ⟨2, ['+'], ['0', '0', '7'], by simp [List.replicate], Or.inr rfl, by simp, ?_, ?_⟩, ?_⟩
  · simp [Char.isDigit]
  · simp [decimalValue, digitValue, Nat.ofDigits]
  · simp [length_network]

/-- The states are numbered from 0 to 29. -/
theorem not_namesState_pastEnd : ¬ NamesState network "s30" := by
  refine readState_eq_none_iff.mp ?_
  simp [readState, readNumber, readDigits, length_network, Char.isDigit]

/-- Behind two hyphens everything is the name of a state. -/
theorem read_behind_hyphens (states : List String) :
    Command.read ("--" :: states) = .analyse ⟨[], states⟩ := by
  simp [Command.read, Command.readAfter, Command.ofRequest, Request.repeated?]

/-- The same state may be named twice, and behind a name that is refused nothing else matters. -/
theorem analyse_states_twice :
    (analyse network ⟨[.omitEnd], ["ss+007", "ss+007"]⟩).code = 0 ∧
    analyse network ⟨[], ["ss+007", "s30", "x"]⟩ =
      ⟨1, "", unlines ["error: `s30` is not a state of the network"]⟩ ∧
    run ["--", "ss+007", "s30", "x"] = analyse network ⟨[], ["ss+007", "s30", "x"]⟩ := by
  obtain ⟨htwice, -⟩ := analyse_states ⟨[.omitEnd], ["ss+007", "ss+007"]⟩ (by simp)
  obtain ⟨hthree, hrun, -⟩ := analyse_states ⟨[], ["ss+007", "s30", "x"]⟩ (by simp)
  refine ⟨htwice.accepted.mpr (by simp [namesState_leadingZeros]), ?_,
    hrun _ none (read_behind_hyphens _)⟩
  obtain ⟨before, text, after, hsplit, hbefore, htext, houtcome⟩ := hthree.refused (by
    simp [not_namesState_pastEnd])
  -- The first name is that of a state, and the second is not, so it is the second that is refused.
  match before, hsplit with
  | [], hsplit =>
      obtain ⟨rfl, -⟩ := List.cons_eq_cons.mp hsplit
      exact absurd namesState_leadingZeros htext
  | [_], hsplit =>
      obtain ⟨-, hsplit⟩ := List.cons_eq_cons.mp hsplit
      obtain ⟨rfl, -⟩ := List.cons_eq_cons.mp hsplit
      exact houtcome
  | _ :: second :: _, hsplit =>
      obtain ⟨-, hsplit⟩ := List.cons_eq_cons.mp hsplit
      obtain ⟨rfl, -⟩ := List.cons_eq_cons.mp hsplit
      exact absurd (hbefore _ (by simp)) not_namesState_pastEnd

end CommandLine
end RuleNetwork
