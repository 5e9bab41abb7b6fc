import RecordStore.Bench.Setup
import RecordStore.Proofs.Cache.Calls
import RecordStore.Proofs.Store.Sequential

/-!
# Quiet benches

A probe is *quiet* if its script lets every call pass.  A call through a quiet probe leaves a line
in the log, and is otherwise the call itself (`World.advance_probed`).

Each node of a world came from a part of the setup, and stays of its sort, whatever is called
(`Part.Stands`).  So a component is reached in the way that its part tells
(`Setup.advance_handler`).  Calls on memory are one request.  Calls on a cache are programs of the
cache, and run there as on the cache alone (`World.advance_onCache`), but for the call that shuts it
down.

A world is *calm* if all of its probes are quiet and all of its parts stand (`Setup.Calm`).
-/

namespace RecordStore

namespace Memory

variable (m : Memory)

theorem name_foldl {α : Type} (f : Memory → α → Memory) (hf : ∀ m a, (f m a).name = m.name)
    (as : List α) : (as.foldl f m).name = m.name := by
  induction as generalizing m with
  | nil => rfl
  | cons a as ih => exact (ih (f m a)).trans (hf m a)

theorem name_perform (call : Call) : (m.perform call).2.name = m.name := by
  cases call with
  | saveBatch entries => exact name_foldl m.countBatch put (fun _ _ => rfl) entries
  | deleteBatch ids => exact name_foldl m erase (fun _ _ => rfl) ids
  | clearMetadata kind =>
      show (m.clearMetadata kind).name = m.name
      rw [clearMetadata]
      split <;> rfl
  | _ => rfl

end Memory

namespace Bench

/-! ## Worlds -/

namespace World

variable {w : World} {n caller : Nat}

theorem setNode_self (w : World) (n : Nat) : w.setNode n (w.node n) = w := by
  have hnodes : w.nodes.set n (w.nodes.getD n { component := .null }) = w.nodes := by
    refine List.ext_getElem? fun i => ?_
    rw [List.getElem?_set, List.getD_eq_getElem?_getD]
    split
    next heq =>
      subst heq
      split
      next hlt =>
        rw [List.getElem?_eq_getElem hlt]
        rfl
      next hge => rw [List.getElem?_eq_none (Nat.not_lt.1 hge)]
    next => rfl
  rw [setNode, node, hnodes]

section

variable (hn : n < w.nodes.length) (component : Component) (m : Nat)

include hn

theorem node_setComponent :
    (w.setComponent n component).node m
      = if m = n then { w.node n with component } else w.node m := by
  rw [setComponent, setNode, node, List.getD_eq_getElem?_getD, List.getElem?_set]
  by_cases hm : m = n
  · rw [if_pos hm.symm, if_pos hm, if_pos (hm ▸ hn)]
    rfl
  · rw [if_neg (Ne.symm hm), if_neg hm, node, List.getD_eq_getElem?_getD]

theorem setComponent_setComponent (component' : Component) :
    (w.setComponent n component).setComponent n component' = w.setComponent n component' := by
  show (w.setComponent n component).setNode n
    { (w.setComponent n component).node n with component := component' } = _
  rw [node_setComponent hn, if_pos rfl]
  show ({ w with nodes := (w.nodes.set n _).set n _ } : World) = _
  rw [List.set_set]
  rfl

theorem script_setComponent : (w.setComponent n component).script m = w.script m := by
  rw [script, script, node_setComponent hn]
  split
  next hm => rw [hm]
  next => rfl

end

/-- A request of a cache. -/
theorem reply_cache {r : Cache.Running} {b : Nat} (hc : (w.node n).component = .cache r b)
    (caller : Nat) (q : Cache.Request) :
    reply? caller (.cache n q) w = ((r.reply? caller w.now q).1,
      (w.setComponent n (.cache (r.reply? caller w.now q).2 b)).keepTicker n q
        (r.reply? caller w.now q).1) := by
  show w.askCache caller n q = _
  rw [askCache, hc]

/-- A program that needs only the cache runs on a bench as it does on the cache. -/
theorem advance_onCache {α : Type} {r r' : Cache.Running} {b : Nat}
    (hc : (w.node n).component = .cache r b) (backend : Handler) {p : Cache.Service.Prog α} {a : α}
    (h : p.advance (Cache.Running.environment w.now) caller r = (.done a, r')) :
    (onCache n backend p).advance environment caller w
      = (.done a, w.setComponent n (.cache r' b)) := by
  induction p generalizing w r with
  | done a' =>
      cases h
      have hself : w.setComponent n (w.node n).component = w := w.setNode_self n
      rw [hc] at hself
      rw [hself]
      rfl
  | ask q next ih =>
      have hlt : n < w.nodes.length := by
        refine Nat.lt_of_not_le fun hle => ?_
        rw [node, List.getD_eq_getElem?_getD, List.getElem?_eq_none hle] at hc
        cases hc
      rw [Program.advance] at h
      split at h
      next x r₁ hx =>
        have hworker : q ≠ .nextEvent := by
          rintro rfl
          cases hx
        have hbackend : ∀ call, q ≠ .backend call := by
          rintro call rfl
          cases hx
        have hreply : r.reply? caller w.now q = (some x, r₁) := by
          rw [← hx]
          cases q <;> first | rfl | exact absurd rfl hworker
        have hstep : cacheStep n backend q = ask (.cache n q) := by
          cases q <;> first | rfl | exact absurd rfl (hbackend _)
        have hticker : ∀ w : World, w.keepTicker n q (some x) = w := by
          intro w
          cases q <;> first | rfl | exact absurd rfl hworker
        have hasked : (cacheStep n backend q).advance environment caller w
            = (.done x, w.setComponent n (.cache r₁ b)) := by
          have hcache := reply_cache hc caller q
          rw [hreply, hticker] at hcache
          rw [hstep]
          exact Program.advance_ask hcache
        refine (Program.advance_bind _ hasked).trans ?_
        have hc' : ((w.setComponent n (.cache r₁ b)).node n).component = .cache r₁ b := by
          rw [node_setComponent hlt, if_pos rfl]
        refine (ih x hc' h).trans ?_
        rw [setComponent_setComponent hlt]
      next => cases h

theorem keepTicker_eq (w : World) (n : Nat) (q : Cache.Request) (reply : Option (Cache.Reply q)) :
    ∃ tickers, w.keepTicker n q reply = { w with tickers } := by
  unfold keepTicker
  split <;> exact ⟨_, rfl⟩

end World

/-! ## Probes -/

/-- A script that lets every call pass. -/
structure Script.IsQuiet (s : Script) : Prop where
  gate : s.gate = []
  gateAfter : s.gateAfter = []
  fail : s.fail = []
  reject : s.reject = false

namespace World

variable {w w' : World} {n caller : Nat} (hquiet : (w.script n).IsQuiet)

include hquiet

theorem advance_hold (after : Bool) (method : String) :
    (hold n after method).advance environment caller w = (.done (), w) := by
  have hgated :
      (ask (.isGated n after method)).advance environment caller w = (.done false, w) := by
    cases after with
    | true =>
        show (Program.done ((w.script n).gateAfter.contains method), w) = _
        rw [hquiet.gateAfter]
        rfl
    | false =>
        show (Program.done ((w.script n).gate.contains method), w) = _
        rw [hquiet.gate]
        rfl
  exact Program.advance_bind _ hgated

theorem advance_takeFailure (method : String) :
    (ask (.takeFailure n method)).advance environment caller w = (.done none, w) := by
  have htaken : (w.script n).takeFailure method = (none, w.script n) := by
    rw [Script.takeFailure, hquiet.fail]
    rfl
  show (Program.done ((w.script n).takeFailure method).1,
    w.setProbe n { (w.node n).probe with script := ((w.script n).takeFailure method).2 }) = _
  rw [htaken]
  exact congrArg _ (w.setNode_self n)

theorem advance_refused (call : Call) :
    (refused n call).advance environment caller w = (.done none, w) := by
  rw [refused]
  split
  next => rfl
  next no =>
    have hreject : (ask (.isRejecting n)).advance environment caller w = (.done false, w) := by
      show (Program.done (w.script n).reject, w) = _
      rw [hquiet.reject]
    exact Program.advance_bind _ hreject

/-- A call through a quiet probe. -/
theorem advance_probed {call : Call} {handler : Handler} {outcome : call.Outcome}
    (hquiet' : (w'.script n).IsQuiet)
    (h : (handler call).advance environment caller (w.write [toString n ++ "." ++ call.text])
      = (.done outcome, w')) :
    (probed n handler call).advance environment caller w = (.done outcome, w') := by
  have hwritten : ((w.write [toString n ++ "." ++ call.text]).script n).IsQuiet := hquiet
  rw [probed]
  refine (Program.advance_ask rfl).trans ?_
  refine (Program.advance_bind _ (advance_hold hwritten false call.method)).trans ?_
  refine (Program.advance_bind _ (advance_takeFailure hwritten call.method)).trans ?_
  refine (Program.advance_bind _ (advance_refused hwritten call)).trans ?_
  refine (Program.advance_bind _ h).trans ?_
  exact Program.advance_bind _ (advance_hold hquiet' true call.method)

/-- A record that is offered to a cache through a quiet probe. -/
theorem advance_offered {r : Cache.Running} {b : Nat} (hc : (w.node n).component = .cache r b)
    (access : Access) (key : Key) (record : Record) :
    (offered n access key record).advance environment caller w = (.done (r.offer key record).1,
      (w.write [toString n ++ ".add " ++ (record.idAt key).text]).setComponent n
        (.cache (r.offer key record).2 b)) := by
  have hwritten : ((w.write [toString n ++ ".add " ++ (record.idAt key).text]).script n).IsQuiet :=
    hquiet
  have hc' : ((w.write [toString n ++ ".add " ++ (record.idAt key).text]).node n).component
      = .cache r b := hc
  rw [offered]
  refine (Program.advance_ask rfl).trans ?_
  refine (Program.advance_bind _ (advance_takeFailure hwritten "add")).trans ?_
  exact advance_onCache hc' access.backend (Cache.Service.advance_offer key record)

end World

/-! ## Parts -/

namespace Part

/-- Whether a part becomes a cache. -/
def isCache : Part → Bool
  | cache _ _ => true
  | memory _ | null => false

/-- Whether a component may be what a part has become. -/
def Stands : Part → Component → Prop
  | memory name, .memory m => m.name = name
  | null, .null => True
  | cache backend _, .cache _ backend' => backend' = backend
  | _, _ => False

variable {part : Part} {c : Component}

theorem stands_component (part : Part) : part.Stands part.component := by
  cases part <;> first | rfl | trivial

theorem Stands.perform (h : part.Stands c) (call : Call) : part.Stands (c.perform call).2 := by
  cases part <;> cases c <;> first | exact h | cases h
  exact Memory.name_perform _ call

theorem Stands.name_eq (h : part.Stands c) : part.component.name = c.name := by
  cases part <;> cases c <;> first | exact h.symm | rfl | cases h

theorem Stands.eq_cache {backend : Nat} {config : Cache.Config}
    (h : (cache backend config).Stands c) : ∃ r, c = .cache r backend := by
  cases c with
  | cache r backend' => exact ⟨r, h ▸ rfl⟩
  | memory | null => cases h

end Part

theorem accesses_append (before : List Access) (parts : List Part) :
    ∃ later, accesses before parts = before ++ later := by
  induction parts generalizing before with
  | nil => exact ⟨[], (List.append_nil before).symm⟩
  | cons part parts ih =>
      obtain ⟨later, hlater⟩ := ih (before ++ [part.access before before.length])
      exact ⟨_, hlater.trans (List.append_assoc _ _ _)⟩

/-- The access to a component is told by its part, and by the access to those before it. -/
theorem accesses_eq {parts : List Part} {i : Nat} {part : Part} (h : parts[i]? = some part)
    (before : List Access) :
    ∃ earlier later, earlier.length = before.length + i ∧
      accesses before parts = earlier ++ part.access earlier earlier.length :: later := by
  induction parts generalizing before i with
  | nil => cases h
  | cons first rest ih =>
      rw [accesses]
      cases i with
      | zero =>
          cases h
          obtain ⟨later, hlater⟩ :=
            accesses_append (before ++ [part.access before before.length]) rest
          exact ⟨before, later, rfl, hlater.trans (List.append_assoc _ _ _)⟩
      | succ i =>
          obtain ⟨earlier, later, hlength, heq⟩ :=
            ih h (before ++ [first.access before before.length])
          refine ⟨earlier, later, ?_, heq⟩
          rw [hlength, List.length_append, List.length_singleton, Nat.add_assoc, Nat.add_comm 1]

namespace Setup

/-- The part of a number. -/
def part? (g : Setup) (n : Nat) : Option Part := g.parts[n]?.map Prod.fst

variable {g : Setup} {w : World} {n caller : Nat} {call : Call} {part : Part}

theorem lt_of_part? (hpart : g.part? n = some part) : n < g.parts.length := by
  obtain ⟨p, hp, -⟩ := Option.map_eq_some_iff.1 hpart
  exact (List.getElem?_eq_some_iff.1 hp).1

theorem access_eq (hpart : g.part? n = some part) :
    ∃ earlier, (∀ b < n, earlier.getD b .none = g.accesses.getD b .none) ∧
      g.accesses.getD n .none = part.access earlier n := by
  rw [part?, ← List.getElem?_map] at hpart
  obtain ⟨earlier, later, hlength, heq⟩ := accesses_eq hpart []
  rw [List.length_nil, Nat.zero_add] at hlength
  subst hlength
  refine ⟨earlier, fun b hb => ?_, ?_⟩
  · rw [accesses, heq, List.getD_eq_getElem?_getD, List.getD_eq_getElem?_getD,
      List.getElem?_append_left hb]
  · rw [accesses, heq, List.getD_eq_getElem?_getD,
      List.getElem?_append_right (Nat.le_refl _), Nat.sub_self]
    rfl

/-- A call on a component that is not shut down. -/
theorem advance_handler (hpart : g.part? n = some part)
    (hstands : part.Stands (w.node n).component)
    (hcall : part.isCache = true → call ≠ .shutdown) :
    ((g.accesses.getD n .none).handler call).advance World.environment caller w
      = (.done ((w.node n).component.perform call).1,
        w.setComponent n ((w.node n).component.perform call).2) := by
  obtain ⟨earlier, -, haccess⟩ := access_eq hpart
  have hself : w.setComponent n (w.node n).component = w := w.setNode_self n
  rw [haccess]
  cases part with
  | memory name =>
      show (Program.done (w.perform n call).1, (w.perform n call).2) = _
      rw [World.perform]
      cases hc : (w.node n).component with
      | memory m => rfl
      | null | cache => rw [hc] at hstands; cases hstands
  | null =>
      show (Program.done (w.perform n call).1, (w.perform n call).2) = _
      rw [World.perform]
      cases hc : (w.node n).component with
      | null =>
          rw [hc] at hself
          rw [Component.perform, hself]
      | memory | cache => rw [hc] at hstands; cases hstands
  | cache backend config =>
      obtain ⟨r, hc⟩ := hstands.eq_cache
      rw [hc]
      exact World.advance_onCache hc _ (Cache.Service.advance_serve _ (hcall rfl))

/-! ## Calm worlds -/

/-- A world with quiet probes, in which every part stands. -/
structure Calm (g : Setup) (w : World) : Prop where
  quiet : ∀ n, (w.script n).IsQuiet
  length : w.nodes.length = g.parts.length
  stands : ∀ n part, g.part? n = some part → part.Stands (w.node n).component

/-- A bench at the beginning, if its scripts are quiet. -/
theorem calm_world (hquiet : ∀ p ∈ g.parts, p.2.IsQuiet) : g.Calm g.world where
  quiet n := by
    rw [World.script, World.node, world, List.getD_eq_getElem?_getD, List.getElem?_map]
    cases hp : g.parts[n]? with
    | none => exact ⟨rfl, rfl, rfl, rfl⟩
    | some p => exact hquiet p (List.mem_of_getElem? hp)
  length := List.length_map _
  stands n part hpart := by
    obtain ⟨p, hp, rfl⟩ := Option.map_eq_some_iff.1 hpart
    rw [World.node, world, List.getD_eq_getElem?_getD, List.getElem?_map, hp]
    exact p.1.stands_component

namespace Calm

theorem write (h : g.Calm w) (lines : List String) : g.Calm (w.write lines) :=
  ⟨h.quiet, h.length, h.stands⟩

theorem lt_length (h : g.Calm w) (hpart : g.part? n = some part) : n < w.nodes.length :=
  h.length ▸ lt_of_part? hpart

theorem setComponent (h : g.Calm w) (hpart : g.part? n = some part) {c : Component}
    (hc : part.Stands c) : g.Calm (w.setComponent n c) := by
  have hn := h.lt_length hpart
  refine ⟨fun m => ?_, ?_, fun m part' hpart' => ?_⟩
  · rw [World.script_setComponent hn]
    exact h.quiet m
  · rw [← h.length]
    exact List.length_set
  · rw [World.node_setComponent hn]
    split
    next hm =>
      rw [hm, hpart] at hpart'
      cases hpart'
      exact hc
    next => exact h.stands m part' hpart'

/-- A call of the store on a component. -/
theorem advance_probed (h : g.Calm w) (hpart : g.part? n = some part)
    (hcall : part.isCache = true → call ≠ .shutdown) (caller : Nat) :
    ∃ lines, (g.probed n call).advance World.environment caller w
        = (.done ((w.node n).component.perform call).1,
          (w.write lines).setComponent n ((w.node n).component.perform call).2) ∧
      g.Calm ((w.write lines).setComponent n ((w.node n).component.perform call).2) := by
  have hstands := h.stands n part hpart
  have hwritten := h.write [toString n ++ "." ++ call.text]
  have hcalm := hwritten.setComponent hpart (hstands.perform call)
  have hhandled : ((g.accesses.getD n .none).handler call).advance World.environment caller _ = _ :=
    advance_handler hpart (hwritten.stands n part hpart) hcall
  exact ⟨_, World.advance_probed (h.quiet n) (hcalm.quiet n) hhandled, hcalm⟩

end Calm

end Setup

end Bench

end RecordStore
