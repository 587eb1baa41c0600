import Needlework.Proofs.Engine.Marks

/-!
# The life of an engine

However a parse ends, no parse runs afterwards, there is no root, and nothing is put aside.
Nothing is open and there is no output either, unless the teardown was interrupted (`CutShort`).
Then the engine keeps its open nodes and its output.  The text, the cursor, the status, the needles
and the counters stay as the scan left them.

No later parse can tell.  Each of them is set anew before a hook is called, so that a parse on
an engine with any history goes as on a new one with the same settings.  This is so for
grammars that go by what they see of the engine alone (`Grammar.Forgetful`).  The nodes of
earlier parses are still in the forest.  A hook comes across the nodes of its own parse only,
and these refer to each other only, so that the two runs are alike on the nodes from the
first new one on (`since`).
-/

namespace Needlework

variable {σ : Type}

namespace Engine

open Act

variable {w v w' : World σ}

/-! ## Engines at rest -/

/-- A new engine with the settings of another. -/
def renewed (e : Engine) : Engine :=
  { make e.config e.correlation with filters := e.filters, codecs := e.codecs, strict := e.strict }

/-- An engine without what the last parse has left behind. -/
def forgotten (e : Engine) : Engine := { e.unread with metrics := {}, rewound := false }

/-- An engine between parses: a new one, but for what the last parse has left behind. -/
def AtRest (e : Engine) : Prop := e.forgotten = e.renewed

theorem atRest_make (config : Config) (correlation : Option Text) :
    (make config correlation).AtRest := rfl

theorem atRest_rested (e : Engine) (down : Except Fault Unit) : (e.rested down).AtRest := rfl

/-- No parse runs, there is no root, and nothing is put aside. -/
structure Idle (e : Engine) : Prop where
  parsing : e.parsing = false
  root : e.root = none
  detached : e.detached = []

theorem AtRest.idle {e : Engine} (h : e.AtRest) : e.Idle where
  parsing := (congrArg Engine.parsing h :)
  root := (congrArg Engine.root h :)
  detached := (congrArg Engine.detached h :)

/-- Nothing is open, and there is no output. -/
structure Bare (e : Engine) : Prop where
  stack : e.stack = []
  output : e.output = .null

theorem bare_rested {down : Except Fault Unit} (stays : interrupted down = false) (e : Engine) :
    (e.rested down).Bare := by
  constructor <;> simp [rested, cleaned, stays]

/-! ## One engine in two forests -/

/-- Worlds with the same engine, and with forests and memories that are related. -/
def Likeness.across {F : Forest → Forest → Prop} {In : Handle → Prop}
    (twins : Forest.Twins F In fun _ => True) (memory : σ → σ → Prop) : Likeness σ where
  forest := F
  In := In
  memory := memory
  standing e e' := e' = e
  fault _ := True
  twins := twins
  filters _ _ _ _ _ _ _ := trivial
  recovered h := by rw [h]

section Across

variable {F : Forest → Forest → Prop} {In : Handle → Prop}
  {twins : Forest.Twins F In fun _ => True} {memory : σ → σ → Prop}

theorem Likeness.across_fair : (Likeness.across twins memory).Fair where
  strict h := congrArg Engine.strict h
  downgraded h := congrArg Engine.downgraded h
  closed n _ h := congrArg (Engine.closedBy n) h

theorem Likeness.built_across {g : Grammar σ}
    (blind : ∀ call : HookCall, (across twins memory).Blind (call.hook g)) (n : Nat) (input : Input)
    (r : (across twins memory).Ready w v) :
    Agree (across twins memory).Ready (across twins memory).ending Both
        ((build g n input).outcome w) ((build g n input).outcome v)
      ∧ (buildCourse g n input).calls v = (buildCourse g n input).calls w :=
  across_fair.built blind n input r

end Across

/-! ## Ids -/

/-- Every world is like itself as long as its ids belong to its nodes. -/
def counting : Likeness σ := .across Forest.twins_counted fun s s' => s' = s

theorem counting_blind (h : Hook σ Bool) : counting.Blind h := by
  refine Likeness.Exact.blind ⟨And.left, id⟩ ?_ (.of_forall (fun _ => trivial) h)
  refine .of_forall (fun o => ?_) h
  refine Likeness.permits_of_forall (fun _ => trivial) (fun _ => rfl)
    (fun _ => Likeness.across_fair) (fun e _ => e.raises_of_forall fun _ => trivial) ?_
  exact fun s _ e e' h => (congrArg (fun e : Engine => { e with strict := s }) h :)

/-- A parse leaves the engine at rest, however it ends. -/
theorem atRest_parse (g : Grammar σ) (rounds : Nat) (input : Input) (override : Option Text)
    (rest : w.engine.AtRest) (counted : w.forest.Counted) :
    ((parse g rounds input override).outcome w).2.engine.AtRest
      ∧ ((parse g rounds input override).outcome w).2.forest.Counted := by
  by_cases accepted : ∀ x, input ≠ .other x
  · have ready : counting.Ready ((enter override).outcome w).2 ((enter override).outcome w).2 :=
      ⟨⟨rfl, counted⟩, rfl, rfl, rfl, ⟨fun _ _ => trivial, fun _ _ => trivial, fun _ _ => trivial,
        fun _ _ _ _ => trivial⟩⟩
    have agree := (Likeness.built_across (fun call => counting_blind (call.hook g)) rounds input
      ready).1
    obtain ⟨ended, rep, w₁, v₁, l, l', ready, -, parsed, -⟩ :=
      Likeness.exists_outcome_parses rest.idle.parsing rest.idle.parsing accepted agree
    rw [parsed]
    exact ⟨atRest_rested _ _, ready.cleared.2.1.2⟩
  · obtain ⟨x, rfl⟩ := not_forall_not.mp accepted
    rw [outcome_parse_other g rounds x override rest.idle.parsing]
    exact ⟨rest, counted⟩

/-! ## Histories -/

/-- The histories of an engine.  It is new at first.  Then parses come one after the other, each
on any input and with any end.  In between, the strictness and the filters may be set, and
anything may happen to the forest, the memory and the log. -/
inductive History (g : Grammar σ) : World σ → Prop where
  | start {w : World σ} (config : Config) (correlation : Option Text) (codecs : Codecs) :
      w.engine = { make config correlation with codecs := codecs } → w.forest.Counted → History g w
  | parse {w : World σ} (rounds : Nat) (input : Input) (override : Option Text) :
      History g w → History g ((parse g rounds input override).outcome w).2
  | configure {w : World σ} (strict : Value) (filters : Pipeline) :
      History g w → History g (w.onEngine fun e => { e with strict := strict, filters := filters })
  | meanwhile {w : World σ} (forest : Forest) (memory : σ) (log : List Record) :
      forest.Counted → History g w →
      History g { w with forest := forest, memory := memory, log := log }

theorem History.atRest {g : Grammar σ} (h : History g w) : w.engine.AtRest ∧ w.forest.Counted := by
  induction h with
  | start config correlation codecs hw counted =>
      rw [hw]
      exact ⟨rfl, counted⟩
  | parse rounds input override _ ih => exact atRest_parse g rounds input override ih.1 ih.2
  | configure strict filters _ ih =>
      refine ⟨?_, ih.2⟩
      exact congrArg (fun e : Engine => { e with strict := strict, filters := filters }) ih.1
  | meanwhile forest memory log counted _ ih => exact ⟨ih.1, counted⟩

/-! ## Runs from different pasts -/

/-- The forests agree from a node on, and the engines are the same.  The memories may be any. -/
def since (base : Handle) : Likeness σ := .across (Forest.twins_agreeFrom base) fun _ _ => True

end Engine

/-- A grammar whose hooks go by their arguments and by what they see of the engine: they handle
only the nodes that they come across there, and do not depend on what is in the forest besides
or on any memory. -/
def Grammar.Forgetful (g : Grammar σ) : Prop :=
  ∀ base, ∀ call : Engine.HookCall, (Engine.since base).Blind (call.hook g)

namespace Engine

open Act

variable {w v w' : World σ}

/-- The grammar of bold text goes by what it sees. -/
theorem forgetful_treeGrammar : (Bold.treeGrammar σ).Forgetful := by
  intro base call
  -- to publish needles is the same in both statuses
  have switches : ∀ n needles, (since base : Likeness σ).Blind
      (do Hook.assign (.needles needles); Hook.assign (.status n); return true) := by
    intro n needles
    refine Likeness.blind_bind_ask (o := .assign (.needles needles)) trivial ?_
    rintro _ _ rfl
    refine ⟨rfl, Likeness.blind_bind_ask (o := .assign (.status n)) trivial ?_⟩
    rintro _ _ rfl
    exact ⟨rfl, trivial⟩
  have moves : ∀ n, (since base : Likeness σ).Blind (do Hook.setStatus n; return true) := by
    intro n
    refine Likeness.blind_bind_ask (o := .setStatus n) trivial ?_
    rintro _ _ rfl
    exact ⟨rfl, trivial⟩
  cases call with
  | init => exact moves 0
  | setStatus n =>
      show Likeness.Blind _ (Bold.setStatus n)
      rw [Bold.setStatus]
      split
      · exact switches n _
      split
      · exact switches n _
      · trivial
  | handleStatus n needle =>
      show Likeness.Blind _ (Bold.handleStatus needle)
      rw [Bold.handleStatus]
      split
      · refine Likeness.blind_bind_ask (o := .look) trivial fun a b views => ?_
        have cursor : b.cursor = a.cursor := (congrArg View.cursor views.same :)
        rw [cursor]
        refine ⟨rfl, Likeness.blind_bind_ask (o := .edit (.create _)) ⟨trivial, fun _ _ => trivial⟩ ?_⟩
        rintro h _ ⟨rfl, inScope⟩
        refine ⟨rfl, Likeness.blind_bind_ask ?_ ?_⟩
        · exact inScope
        rintro _ _ ⟨rfl, -⟩
        exact ⟨rfl, moves _⟩
      · refine Likeness.blind_bind_ask (o := .pop) trivial ?_
        rintro _ _ ⟨rfl, -⟩
        exact ⟨rfl, moves _⟩
  | closeRemainingBlocks => exact Likeness.blind_ask Likeness.across_fair fun _ _ => id
  | modifyTree => trivial
  | outputTree => trivial

/-! ## The end of a parse -/

/-- The teardown of a parse is interrupted by a fault. -/
def CutShort (g : Grammar σ) (rounds : Nat) (input : Input) (override : Option Text) (w : World σ)
    (f : Fault) : Prop :=
  f.passesThrough = true ∧ ∃ ended w',
    (build g rounds input).outcome ((enter override).outcome w).2 = (ended, w')
      ∧ (cleared w').1 = .error f

/-- A parse that is not refused leaves the engine idle and bare, unless its teardown is
interrupted.  Then it ends with the interrupt. -/
theorem idle_of_parse (g : Grammar σ) (rounds : Nat) {input : Input} (override : Option Text)
    (idle : w.engine.parsing = false) (accepted : ∀ x, input ≠ .other x) :
    ((parse g rounds input override).outcome w).2.engine.Idle
      ∧ (((parse g rounds input override).outcome w).2.engine.Bare
        ∨ ∃ f, CutShort g rounds input override w f
          ∧ ((parse g rounds input override).outcome w).1 = .error f) := by
  obtain ⟨⟨ended, w'⟩, built⟩ : ∃ out, (build g rounds input).outcome ((enter override).outcome w).2
      = out := ⟨_, rfl⟩
  obtain ⟨-, r, l, parsed, -⟩ := exists_outcome_parse idle accepted built
  rw [parsed]
  refine ⟨⟨rfl, rfl, rfl⟩, ?_⟩
  cases stays : interrupted (cleared w').1 with
  | false => exact .inl (bare_rested stays _)
  | true =>
      obtain ⟨f, down, escapes⟩ := exists_escaping stays
      refine .inr ⟨f, ⟨?_, ended, w', built, down⟩, ?_⟩
      · rw [down] at stays
        exact stays
      · rw [concluded, escapes]

/-! ## A new engine in the place of an old one -/

/-- When a parse begins, the engine refers to no node but those that were left open. -/
theorem Idle.scoped {In : Handle → Prop} (idle : w.engine.Idle) (override : Option Text) :
    ((enter override).outcome w).2.engine.unread.Scoped In := by
  refine ⟨List.forall_mem_nil _, fun h hh => ?_, fun h hh => ?_, fun r h hr tree => ?_⟩
  · change w.engine.root = some h at hh
    rw [idle.root] at hh
    cases hh
  · change h ∈ w.engine.detached at hh
    rw [idle.detached] at hh
    cases hh
  · cases hr
    cases tree

/-- Apart from the mark, the engine is ready for the same parse as a new one. -/
theorem AtRest.ready (rest : w.engine.AtRest) (new : v.engine = w.engine.renewed)
    (size : v.forest.size = w.forest.size) (nextId : v.forest.nextId = w.forest.nextId)
    (override : Option Text) :
    (since w.forest.size).Ready ((enter override).outcome (w.marked false)).2
      ((enter override).outcome v).2 where
  forest := .of_size size nextId
  memory := trivial
  kin := by
    show (v.engine.entered override).impartial.unread = _
    rw [new, ← rest]
    rfl
  standing := by
    show (v.engine.entered override).standing = _
    rw [new, ← rest]
    rfl
  inScope := Idle.scoped (w := w.marked false) ⟨rest.idle.parsing, rest.idle.root, rest.idle.detached⟩
    override

/-- A parse leaves the engine idle and bare, unless its teardown is interrupted or its input is
refused, which changes nothing.  In any case the next parse goes as on a new engine: the same hooks
are called, the same is returned or raised, and the new nodes are the same. -/
theorem history_independent {g : Grammar σ} (history : History g w) (rounds : Nat) (input : Input)
    (override : Option Text) :
    ((parse g rounds input override).outcome w).2.engine.Idle
      ∧ (((parse g rounds input override).outcome w).2.engine.Bare
        ∨ (∃ f, CutShort g rounds input override w f
          ∧ ((parse g rounds input override).outcome w).1 = .error f)
        ∨ (∃ x, input = .other x) ∧ ((parse g rounds input override).outcome w).2 = w)
      ∧ (g.Forgetful → ∀ v : World σ, v.engine = w.engine.renewed → v.forest.Counted →
        v.forest.nextId = w.forest.nextId →
          ∃ out w' v', (parse g rounds input override).outcome w = (out, w')
            ∧ (parse g rounds input override).outcome v = (out, v')
            ∧ hookCalls g rounds input override w = hookCalls g rounds input override v
            ∧ Forest.AgreeFrom w.forest.size w'.forest v'.forest
            ∧ ∀ report r, out = .ok report → report.tree = some r → w.forest.size ≤ r) := by
  obtain ⟨rest, counted⟩ := history.atRest
  by_cases accepted : ∀ x, input ≠ .other x
  case neg =>
    obtain ⟨x, rfl⟩ := not_forall_not.mp accepted
    rw [outcome_parse_other g rounds x override rest.idle.parsing]
    refine ⟨rest.idle, .inr (.inr ⟨⟨x, rfl⟩, rfl⟩), fun forgetful v new counted' nextId => ?_⟩
    have idle' : v.engine.parsing = false := by
      rw [new]
      rfl
    refine ⟨_, w, v, rfl, outcome_parse_other g rounds x override idle', ?_,
      .of_size (counted'.symm.trans (nextId.trans counted)) nextId, nofun⟩
    have size : v.forest.size = w.forest.size := counted'.symm.trans (nextId.trans counted)
    have calls := (Likeness.built_across (forgetful w.forest.size) rounds (.other x)
      (rest.ready new size nextId override)).2
    exact (hookCalls_marked g rounds _ override w false).symm.trans calls.symm
  obtain ⟨idle, ends⟩ := idle_of_parse g rounds override rest.idle.parsing accepted
  refine ⟨idle, ends.imp_right .inl, fun forgetful v new counted' nextId => ?_⟩
  have size : v.forest.size = w.forest.size := counted'.symm.trans (nextId.trans counted)
  have idle' : v.engine.parsing = false := by
    rw [new]
    rfl
  -- every node that the two parses come across is new, so the past of the forests is out of scope
  obtain ⟨agree, calls⟩ := Likeness.built_across (forgetful w.forest.size) rounds input
    (rest.ready new size nextId override)
  obtain ⟨ended, rep, w₁, v₁, l, l', ready, hrep, parsed, parsed'⟩ :=
    Likeness.exists_outcome_parses (w := w.marked false) rest.idle.parsing idle' accepted agree
  obtain ⟨b, unmarked⟩ := heedless_parse g rounds input override (w.marked false) w.engine.rewound
  rw [parsed] at unmarked
  refine ⟨_, _, _, unmarked, parsed', ?_, ready.cleared.2.1, fun report r hreport tree => ?_⟩
  · exact (hookCalls_marked g rounds input override w false).symm.trans calls.symm
  · exact ready.inScope.tree rep r hrep (tree_of_concluded hreport tree)

/-- An engine that has failed before. -/
def strictEnd : World Unit :=
  ((parse (Bold.treeGrammar Unit) 8 (.text Bold.openMark) none).outcome strictStart).2

theorem history_independent_strictEnd :
    ((parse (Bold.treeGrammar Unit) 8 (.text Bold.openMark) none).outcome strictEnd).2.engine.Idle
      ∧ ∃ out w' v',
        (parse (Bold.treeGrammar Unit) 8 (.text Bold.openMark) none).outcome strictEnd = (out, w')
          ∧ (parse (Bold.treeGrammar Unit) 8 (.text Bold.openMark) none).outcome
            { strictEnd with engine := strictEnd.engine.renewed } = (out, v')
          ∧ hookCalls (Bold.treeGrammar Unit) 8 (.text Bold.openMark) none strictEnd
            = hookCalls (Bold.treeGrammar Unit) 8 (.text Bold.openMark) none
              { strictEnd with engine := strictEnd.engine.renewed }
          ∧ Forest.AgreeFrom strictEnd.forest.size w'.forest v'.forest := by
  have history : History (Bold.treeGrammar Unit) strictEnd :=
    .parse 8 (.text Bold.openMark) none (.start .strictMode none .standard rfl rfl)
  generalize strictEnd = w at history ⊢
  obtain ⟨idle, -, same⟩ := history_independent history 8 (.text Bold.openMark) none
  obtain ⟨out, w', v', parsed, parsed', calls, forest, -⟩ :=
    same forgetful_treeGrammar { w with engine := w.engine.renewed } rfl history.atRest.2 rfl
  exact ⟨idle, out, w', v', parsed, parsed', calls, forest⟩

/-- A grammar that opens a node whose teardown is interrupted, and fails when the tree is
finished. -/
def stubbornGrammar : Grammar Unit :=
  { Grammar.plain Unit with
    init := do
      Hook.setStatus 0
      let stubborn : Blueprint :=
        { typeName := "Element", kind := 40
          form := .custom { teardown := some (.raised .interrupt [] []) } }
      let _ ← Hook.push (.node (← Hook.edit (.create stubborn)))
      return true
    modifyTree := return false }

/-- The interrupt leaves the parse, and the engine keeps the root open. -/
theorem parse_leaves_open : ∃ f w',
    (parse stubbornGrammar 1 (.text [0x61]) none).outcome { memory := () } = (.error f, w')
      ∧ f.kind = .interrupt ∧ w'.engine.stack = [0] := by
  generalize parsed : (parse stubbornGrammar 1 (.text [0x61]) none).outcome { memory := () } = out
  have read : (match out.1 with | .ok _ => none | .error f => some f.kind) = some .interrupt
      ∧ out.2.engine.stack = [0] := by
    rw [← parsed]
    decide +kernel
  obtain ⟨result, w'⟩ := out
  cases result with
  | ok report => cases read.1
  | error f => exact ⟨f, w', rfl, Option.some.inj read.1, read.2⟩

end Engine

end Needlework
