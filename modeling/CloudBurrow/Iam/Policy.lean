import CloudBurrow.Codec.Utf8
import CloudBurrow.Process.Transaction

namespace CloudBurrow.Iam

open Utf8 Transaction.Txn

structure BindingMessage where
  role : Bytes
  members : List Bytes
  condition : Bool := false
deriving DecidableEq

structure AuditLogMessage where
  logType : Int
  exemptedMembers : List Bytes
deriving DecidableEq

structure AuditMessage where
  service : Bytes
  auditLogConfigs : List AuditLogMessage
deriving DecidableEq

structure Policy where
  version : Int := 1
  bindings : List BindingMessage := []
  auditConfigs : List AuditMessage := []
  etag : Bytes := []
deriving DecidableEq

structure SetRequest where
  updateMask : List Bytes := []
  policy : Option Policy := none

structure Binding where
  role : Bytes
  members : List Bytes
deriving DecidableEq

inductive LogType where
  | adminRead
  | dataWrite
  | dataRead
deriving DecidableEq

structure AuditLogConfig where
  logType : LogType
  exemptedMembers : List Bytes
deriving DecidableEq

structure AuditConfig where
  service : Bytes
  logConfigs : List AuditLogConfig
deriving DecidableEq

structure Stored where
  bindings : List Binding := []
  auditConfigs : List AuditConfig := []
  etag : Bytes := []
deriving DecidableEq

inductive Refusal where
  | maskUnsupported (path : Bytes)
  | maskUnknown (path : Bytes)
  | policyRequired
  | version (v : Int)
  | auditConfigsUnsupported
  | conditionUnsupported (i : Nat)
  | roleRequired (i : Nat)
  | serviceRequired (i : Nat)
  | logTypeRequired (i j : Nat)
  | logTypeUnknown (i j : Nat) (v : Int)
  | etagMismatch
  | requestedVersion (v : Int)
deriving DecidableEq

def emptyEtag : Bytes := [0x00, 0x20, 0x01]

def etag : Option Stored → Bytes
  | none => emptyEtag
  | some s => if s.etag = [] then emptyEtag else s.etag

def LogType.number : LogType → Int
  | adminRead => 1
  | dataWrite => 2
  | dataRead => 3

def Binding.proto (b : Binding) : BindingMessage := { role := b.role, members := b.members }

def AuditLogConfig.proto (l : AuditLogConfig) : AuditLogMessage := ⟨l.logType.number, l.exemptedMembers⟩

def AuditConfig.proto (a : AuditConfig) : AuditMessage := ⟨a.service, a.logConfigs.map AuditLogConfig.proto⟩

def proto (current : Option Stored) : Policy :=
  let s := current.getD {}
  ⟨1, s.bindings.map Binding.proto, s.auditConfigs.map AuditConfig.proto, etag current⟩

def refuse (c : Prop) [Decidable c] (e : Refusal) : Except Refusal Unit := if c then .error e else .ok ()

def get (current : Option Stored) (requestedVersion : Int) : Except Refusal Policy := do
  refuse (requestedVersion ∉ [0, 1, 3]) (.requestedVersion requestedVersion)
  .ok (proto current)

inductive Field where
  | bindings
  | etag
  | version
  | auditConfigs
deriving DecidableEq

def field (audit : Bool) (path : Bytes) : Except Refusal Field :=
  if path = ascii "bindings" then .ok .bindings
  else if path = ascii "etag" then .ok .etag
  else if path = ascii "version" then .ok .version
  else if path = ascii "audit_configs" ∨ path = ascii "auditConfigs" then
    if audit then .ok .auditConfigs else .error (.maskUnsupported path)
  else .error (.maskUnknown path)

def loop {A B : Type} (body : Nat → A → Except Refusal (List B)) : Nat → List A → Except Refusal (List B)
  | _, [] => .ok []
  | i, a :: as => do
    let new ← body i a
    let rest ← loop body (i + 1) as
    .ok (new ++ rest)

def fields (audit : Bool) : List Bytes → Except Refusal (List Field) :=
  loop (fun _ path => (field audit path).map ([·])) 0

def masked (fs : List Field) : List Field := if fs = [] then [.bindings, .etag] else fs

def bindingOf (i : Nat) (b : BindingMessage) : Except Refusal (List Binding) := do
  refuse (b.condition = true) (.conditionUnsupported i)
  refuse (b.role = []) (.roleRequired i)
  .ok (if b.members = [] then [] else [⟨b.role, b.members⟩])

def logConfigOf (i j : Nat) (l : AuditLogMessage) : Except Refusal (List AuditLogConfig) :=
  if l.logType = 0 then .error (.logTypeRequired i j)
  else if l.logType = 1 then .ok [⟨.adminRead, l.exemptedMembers⟩]
  else if l.logType = 2 then .ok [⟨.dataWrite, l.exemptedMembers⟩]
  else if l.logType = 3 then .ok [⟨.dataRead, l.exemptedMembers⟩]
  else .error (.logTypeUnknown i j l.logType)

def auditConfigOf (i : Nat) (a : AuditMessage) : Except Refusal (List AuditConfig) := do
  refuse (a.service = []) (.serviceRequired i)
  let logConfigs ← loop (logConfigOf i) 0 a.auditLogConfigs
  .ok [⟨a.service, logConfigs⟩]

def apply (fresh : Bytes) (audit : Bool) (current : Option Stored) (req : SetRequest) :
    Except Refusal Stored := do
  let fs ← fields audit req.updateMask
  let p ← req.policy.elim (.error .policyRequired) .ok
  refuse (p.version ∉ [0, 1, 3]) (.version p.version)
  refuse (audit = false ∧ p.auditConfigs ≠ []) .auditConfigsUnsupported
  let bindings ← loop bindingOf 0 p.bindings
  let audits ← loop auditConfigOf 0 p.auditConfigs
  refuse (p.etag ≠ [] ∧ p.etag ≠ etag current) .etagMismatch
  let stored := current.getD {}
  .ok {
    bindings :=
      if audit = true ∧ .bindings ∉ masked fs ∧ current.isSome = true then stored.bindings else bindings
    auditConfigs :=
      if audit = false then [] else if .auditConfigs ∈ masked fs then audits else stored.auditConfigs
    etag := fresh }

def set (fresh : Bytes) : Option Stored → SetRequest → Except Refusal Stored := apply fresh false

def setWithAuditConfigs (fresh : Bytes) : Option Stored → SetRequest → Except Refusal Stored :=
  apply fresh true

def SetRequest.NamesBindings (req : SetRequest) : Prop :=
  req.updateMask = [] ∨ ascii "bindings" ∈ req.updateMask

def SetRequest.NamesAuditConfigs (req : SetRequest) : Prop :=
  ascii "audit_configs" ∈ req.updateMask ∨ ascii "auditConfigs" ∈ req.updateMask

instance (req : SetRequest) : Decidable req.NamesBindings := inferInstanceAs (Decidable (_ ∨ _))

instance (req : SetRequest) : Decidable req.NamesAuditConfigs := inferInstanceAs (Decidable (_ ∨ _))

def Policy.granting (p : Policy) : List BindingMessage := p.bindings.filter fun b => b.members ≠ []

structure Framed (current : Option Stored) (req : SetRequest) (p : Policy) (next : Stored) : Prop where
  bindings : if req.NamesBindings then next.bindings.map Binding.proto = p.granting
    else next.bindings = (current.getD {}).bindings
  auditConfigs : if req.NamesAuditConfigs then next.auditConfigs.map AuditConfig.proto = p.auditConfigs
    else next.auditConfigs = (current.getD {}).auditConfigs

def Heeded (audit : Bool) (current : Option Stored) (req : SetRequest) (p : Policy) : Prop :=
  (req.NamesBindings ∨ audit = true ∧ current.isSome = true ∨
    p.granting = (current.getD {}).bindings.map Binding.proto) ∧
  (audit = true ∨ (current.getD {}).auditConfigs = [])

section Applied
variable {audit : Bool} {current : Option Stored} {req : SetRequest} {fresh : Bytes} {next : Stored}

theorem refuse_ok {c : Prop} [Decidable c] {e : Refusal} (h : refuse c e = .ok ()) : ¬ c := by
  unfold refuse at h
  split_ifs at h with hc
  exact hc

theorem loop_map {A B C : Type} {body : Nat → A → Except Refusal (List B)} {g : B → C} {k : A → List C}
    {i : Nat} {as : List A} {bs : List B} (hbody : ∀ i a new, body i a = .ok new → new.map g = k a)
    (h : loop body i as = .ok bs) : bs.map g = as.flatMap k := by
  induction as generalizing i bs with
  | nil =>
    cases h
    rfl
  | cons a as ih =>
    obtain ⟨new, hnew, h⟩ := except_bind_ok h
    obtain ⟨rest, hrest, h⟩ := except_bind_ok h
    cases h
    rw [List.map_append, hbody i a new hnew, ih hrest, List.flatMap_cons]

theorem fields_map {paths : List Bytes} {fs : List Field} (h : fields audit paths = .ok fs) :
    fs.map .ok = paths.map (field audit) := by
  rw [List.map_eq_flatMap (f := field audit)]
  refine loop_map (fun _ path new hnew => ?_) h
  cases hf : field audit path <;> rw [hf] at hnew <;> cases hnew
  rfl

theorem mem_fields {paths : List Bytes} {fs : List Field} (h : fields audit paths = .ok fs) (f : Field) :
    f ∈ fs ↔ ∃ path ∈ paths, field audit path = .ok f := by
  have hmem : f ∈ fs ↔ .ok f ∈ fs.map (Except.ok : Field → Except Refusal Field) := by simp
  rw [hmem, fields_map h, List.mem_map]

theorem field_bindings {path : Bytes} : field audit path = .ok .bindings ↔ path = ascii "bindings" := by
  unfold field
  split_ifs <;> simp_all

theorem field_auditConfigs {path : Bytes} : field audit path = .ok .auditConfigs ↔
      audit = true ∧ (path = ascii "audit_configs" ∨ path = ascii "auditConfigs") := by
  unfold field
  split_ifs <;> simp_all +decide

theorem mem_masked_bindings {fs : List Field} (h : fields audit req.updateMask = .ok fs) :
    .bindings ∈ masked fs ↔ req.NamesBindings := by
  have hnil : fs = [] ↔ req.updateMask = [] := by
    have hlength := congrArg List.length (fields_map h)
    rw [List.length_map, List.length_map] at hlength
    rw [← List.length_eq_zero_iff, ← List.length_eq_zero_iff, hlength]
  rw [masked, SetRequest.NamesBindings, ← hnil]
  split_ifs with hfs
  · simp [hfs]
  · simp [hfs, mem_fields h, field_bindings]

theorem mem_masked_auditConfigs {fs : List Field} (h : fields audit req.updateMask = .ok fs) :
    .auditConfigs ∈ masked fs ↔ audit = true ∧ req.NamesAuditConfigs := by
  have hmem := mem_fields h .auditConfigs
  have hmasked : .auditConfigs ∈ masked fs ↔ .auditConfigs ∈ fs := by
    unfold masked
    split_ifs with hfs <;> simp [hfs]
  simp only [hmasked, hmem, field_auditConfigs, SetRequest.NamesAuditConfigs]
  grind

theorem names_auditConfigs {fs : List Field} (h : fields audit req.updateMask = .ok fs)
    (hnames : req.NamesAuditConfigs) : audit = true := by
  have hfield : ∀ path ∈ req.updateMask, ∃ f, field audit path = .ok f := by
    intro path hpath
    obtain ⟨f, -, hf⟩ := List.mem_map.mp ((fields_map h).symm ▸ List.mem_map_of_mem hpath)
    exact ⟨f, hf.symm⟩
  cases audit with
  | true => rfl
  | false =>
    rcases hnames with hpath | hpath
    all_goals
      obtain ⟨f, hf⟩ := hfield _ hpath
      revert hf
      cases f <;> decide

theorem bindings_proto {bs : List BindingMessage} {out : List Binding} (h : loop bindingOf 0 bs = .ok out) :
    out.map Binding.proto = bs.filter fun b => b.members ≠ [] := by
  rw [← List.flatMap_singleton' bs, List.filter_flatMap]
  refine loop_map (fun i b new hnew => ?_) h
  obtain ⟨⟨⟩, hcondition, hnew⟩ := except_bind_ok hnew
  obtain ⟨⟨⟩, -, hnew⟩ := except_bind_ok hnew
  have hplain : b.condition = false := by simpa using refuse_ok hcondition
  cases hnew
  by_cases hmembers : b.members = [] <;> simp [hmembers, Binding.proto, ← hplain]

theorem logConfigs_proto {i : Nat} {ls : List AuditLogMessage} {out : List AuditLogConfig}
    (h : loop (logConfigOf i) 0 ls = .ok out) : out.map AuditLogConfig.proto = ls := by
  refine (loop_map (k := fun l => [l]) (fun j l new hnew => ?_) h).trans (List.flatMap_singleton' ls)
  obtain ⟨t, exempted⟩ := l
  unfold logConfigOf at hnew
  split_ifs at hnew <;> cases hnew <;> simp_all [AuditLogConfig.proto, LogType.number]

theorem auditConfigs_proto {as : List AuditMessage} {out : List AuditConfig}
    (h : loop auditConfigOf 0 as = .ok out) : out.map AuditConfig.proto = as := by
  refine (loop_map (k := fun a => [a]) (fun i a new hnew => ?_) h).trans (List.flatMap_singleton' as)
  obtain ⟨⟨⟩, -, hnew⟩ := except_bind_ok hnew
  obtain ⟨ls, hls, hnew⟩ := except_bind_ok hnew
  cases hnew
  simp [AuditConfig.proto, logConfigs_proto hls]

theorem Binding.proto_injective : Function.Injective Binding.proto := by
  rintro ⟨role, members⟩ ⟨role', members'⟩ h
  cases h
  rfl

theorem apply_ok (h : apply fresh audit current req = .ok next) : ∃ p, req.policy = some p ∧
    (p.etag ≠ [] → p.etag = etag current) ∧ next.etag = fresh ∧ (req.NamesAuditConfigs → audit = true) ∧
    (if audit = true ∧ ¬ req.NamesBindings ∧ current.isSome = true then
      next.bindings = (current.getD {}).bindings else next.bindings.map Binding.proto = p.granting) ∧
    if audit = false then next.auditConfigs = []
    else if req.NamesAuditConfigs then next.auditConfigs.map AuditConfig.proto = p.auditConfigs
    else next.auditConfigs = (current.getD {}).auditConfigs := by
  obtain ⟨fs, hfs, h⟩ := except_bind_ok h
  obtain ⟨p, hp, h⟩ := except_bind_ok h
  have hpolicy : req.policy = some p := by
    cases hreq : req.policy <;> rw [hreq] at hp <;> cases hp
    rfl
  obtain ⟨⟨⟩, -, h⟩ := except_bind_ok h
  obtain ⟨⟨⟩, -, h⟩ := except_bind_ok h
  obtain ⟨bindings, hbindings, h⟩ := except_bind_ok h
  obtain ⟨audits, haudits, h⟩ := except_bind_ok h
  obtain ⟨⟨⟩, hetag, h⟩ := except_bind_ok h
  cases h
  have hetag' := refuse_ok hetag
  refine ⟨p, hpolicy, by tauto, rfl, names_auditConfigs hfs, ?_, ?_⟩
  · simp only [mem_masked_bindings hfs]
    split_ifs
    · rfl
    · exact bindings_proto hbindings
  · simp only [mem_masked_auditConfigs hfs]
    cases audit with
    | false => rfl
    | true =>
      simp only [true_and, Bool.true_eq_false, if_false]
      split_ifs
      · exact auditConfigs_proto haudits
      · rfl

theorem framed_iff {p : Policy} (hp : req.policy = some p) (h : apply fresh audit current req = .ok next) :
    Framed current req p next ↔ Heeded audit current req p := by
  obtain ⟨p', hp', -, -, hnames, hbindings, haudits⟩ := apply_ok h
  cases hp.symm.trans hp'
  constructor
  · rintro ⟨hb, ha⟩
    constructor
    · by_cases hnamed : req.NamesBindings
      · exact .inl hnamed
      · rw [if_neg hnamed] at hb
        split_ifs at hbindings with hkeep
        · exact .inr (.inl ⟨hkeep.1, hkeep.2.2⟩)
        · exact .inr (.inr (by rw [← hbindings, hb]))
    · cases audit with
      | true => exact .inl rfl
      | false =>
        rw [if_neg (by simpa using hnames)] at ha
        exact .inr (ha.symm.trans haudits)
  · rintro ⟨hb, ha⟩
    constructor
    · split_ifs with hnamed
      · rwa [if_neg (by tauto)] at hbindings
      · split_ifs at hbindings with hkeep
        · exact hbindings
        · have hsame := (hb.resolve_left hnamed).resolve_left fun h => hkeep ⟨h.1, hnamed, h.2⟩
          exact List.map_injective_iff.mpr Binding.proto_injective (hbindings.trans hsame)
    · cases audit with
      | true => simpa using haudits
      | false =>
        rw [if_neg (by simpa using hnames)]
        exact haudits.trans (ha.resolve_left nofun).symm

end Applied

structure Ledger where
  stored : Option Stored
  sets : List Bytes
  reads : Nat → Option (Bytes × Nat)

inductive Op where
  | read (client : Nat) (version : Int)
  | set (client : Nat) (audit : Bool) (req : SetRequest) (fresh : Bytes)

namespace Ledger

def step (l : Ledger) : Op → Ledger
  | .read c version =>
    match get l.stored version with
    | .error _ => l
    | .ok p => { l with reads := Function.update l.reads c (some (p.etag, l.sets.length)) }
  | .set _ audit req fresh =>
    match apply fresh audit l.stored req with
    | .error _ => l
    | .ok next => { l with stored := some next, sets := l.sets ++ [fresh] }

def run (initial : Option Stored) (ops : List Op) : Ledger := ops.foldl step ⟨initial, [], fun _ => none⟩

end Ledger

def Op.fresh : Op → Option Bytes
  | .read _ _ => none
  | .set _ _ _ fresh => some fresh

structure FreshEtags (initial : Option Stored) (ops : List Op) : Prop where
  sized : ∀ e ∈ ops.filterMap Op.fresh, e.length = 8
  distinct : (etag initial :: ops.filterMap Op.fresh).Nodup

def NoLostUpdate (initial : Option Stored) (ops : List Op) : Prop :=
  ∀ before after c audit req fresh p n next, ops = before ++ .set c audit req fresh :: after →
    req.policy = some p → (Ledger.run initial before).reads c = some (p.etag, n) →
    apply fresh audit (Ledger.run initial before).stored req = .ok next →
    n = (Ledger.run initial before).sets.length

section Histories
variable {initial : Option Stored} {ops : List Op} {l : Ledger}

theorem etag_ne_nil (current : Option Stored) : etag current ≠ [] := by
  unfold etag
  split
  · decide
  · split_ifs with h
    · decide
    · exact h

structure Ledger.Sound (initial : Option Stored) (l : Ledger) : Prop where
  last : (etag initial :: l.sets)[l.sets.length]? = some (etag l.stored)
  reads : ∀ c e n, l.reads c = some (e, n) → e ≠ [] ∧ (etag initial :: l.sets)[n]? = some e

theorem Ledger.Sound.step (h : l.Sound initial) {op : Op} (hop : ∀ e ∈ op.fresh, e.length = 8) :
    (l.step op).Sound initial := by
  cases op with
  | read c version =>
    cases hget : get l.stored version with
    | error e => simpa [Ledger.step, hget] using h
    | ok p =>
      obtain ⟨⟨⟩, -, hp⟩ := except_bind_ok hget
      cases hp
      simp only [Ledger.step, hget]
      refine ⟨h.last, fun c' e n hread => ?_⟩
      simp only [Function.update_apply] at hread
      split_ifs at hread
      · cases hread
        exact ⟨etag_ne_nil l.stored, h.last⟩
      · exact h.reads c' e n hread
  | set c audit req fresh =>
    cases happly : apply fresh audit l.stored req with
    | error e => simpa [Ledger.step, happly] using h
    | ok next =>
      obtain ⟨p, -, -, hetag, -⟩ := apply_ok happly
      have hfresh : fresh ≠ [] := List.length_pos_iff.mp (by rw [hop fresh rfl]; decide)
      have hnext : etag (some next) = fresh := by rw [etag, hetag, if_neg hfresh]
      simp only [Ledger.step, happly]
      refine ⟨by simp [hnext], fun c e n hread => ?_⟩
      obtain ⟨hne, hn⟩ := h.reads c e n hread
      obtain ⟨hlt, -⟩ := List.getElem?_eq_some_iff.mp hn
      exact ⟨hne, by rw [← List.cons_append, List.getElem?_append_left hlt, hn]⟩

theorem Ledger.run_snoc (ops : List Op) (op : Op) : run initial (ops ++ [op]) = (run initial ops).step op := by
  rw [run, List.foldl_append]
  rfl

theorem Ledger.sound_run (hops : ∀ e ∈ ops.filterMap Op.fresh, e.length = 8) :
    (run initial ops).Sound initial := by
  induction ops using List.reverseRecOn with
  | nil => exact ⟨rfl, fun c e n hread => by cases hread⟩
  | append_singleton ops op ih =>
    rw [List.filterMap_append, List.forall_mem_append] at hops
    rw [run_snoc]
    exact (ih hops.1).step fun e he => hops.2 e (by simpa using he)

theorem Ledger.sets_sublist (ops : List Op) : (run initial ops).sets.Sublist (ops.filterMap Op.fresh) := by
  induction ops using List.reverseRecOn with
  | nil => exact List.Sublist.refl _
  | append_singleton ops op ih =>
    rw [run_snoc, List.filterMap_append]
    cases op with
    | read c version =>
      rw [step]
      split <;> exact ih.trans (List.sublist_append_left _ _)
    | set c audit req fresh =>
      rw [step]
      split
      · exact ih.trans (List.sublist_append_left _ _)
      · exact ih.append (List.Sublist.refl _)

theorem no_lost_update (h : FreshEtags initial ops) : NoLostUpdate initial ops := by
  rintro before after c audit req fresh p n next rfl hp hread happly
  have hpart : (before.filterMap Op.fresh).Sublist
      ((before ++ .set c audit req fresh :: after).filterMap Op.fresh) :=
    (List.sublist_append_left _ _).filterMap _
  have hsound : (Ledger.run initial before).Sound initial :=
    Ledger.sound_run fun e he => h.sized e (hpart.subset he)
  have hnodup : (etag initial :: (Ledger.run initial before).sets).Nodup :=
    h.distinct.sublist (((Ledger.sets_sublist before).trans hpart).cons_cons _)
  obtain ⟨hne, hn⟩ := hsound.reads c p.etag n hread
  obtain ⟨p', hp', hetag, -⟩ := apply_ok happly
  cases hp.symm.trans hp'
  obtain ⟨hlt, -⟩ := List.getElem?_eq_some_iff.mp hn
  refine (List.getElem?_inj hlt hnodup).mp ?_
  rw [hn, hsound.last, hetag hne]

end Histories

theorem set_changes_named_fields {fresh : Bytes} {audit : Bool} {current : Option Stored} {req : SetRequest} {p : Policy}
    {next : Stored} (hp : req.policy = some p) (h : apply fresh audit current req = .ok next) :
    (Framed current req p next ↔ Heeded audit current req p) ∧
      ∀ initial ops, FreshEtags initial ops → NoLostUpdate initial ops :=
  ⟨framed_iff hp h, fun _ _ h => no_lost_update h⟩

def viewer : BindingMessage := { role := ascii "roles/viewer", members := [ascii "user:a"] }

def etagOf (n : UInt8) : Bytes := List.replicate 8 n

def viewers : Stored := ⟨[⟨ascii "roles/viewer", [ascii "user:a"]⟩], [], etagOf 1⟩

def rival (c : Nat) (n : UInt8) : Op :=
  .set c false { policy := some { bindings := [viewer], etag := emptyEtag } } (etagOf n)

def audited : SetRequest where
  updateMask := [ascii "audit_configs"]
  policy := some { auditConfigs := [⟨ascii "allServices", [⟨3, [ascii "user:a"]⟩]⟩], etag := etagOf 1 }

def auditedViewers : Stored :=
  ⟨viewers.bindings, [⟨ascii "allServices", [⟨.dataRead, [ascii "user:a"]⟩]⟩], etagOf 2⟩

theorem set_changes_named_fields_audited :
    setWithAuditConfigs (etagOf 2) (some viewers) audited = .ok auditedViewers ∧
      (∀ p ∈ audited.policy, Framed (some viewers) audited p auditedViewers) ∧
      FreshEtags none [.read 0 1, .read 1 3, rival 0 1, rival 1 2] ∧
      NoLostUpdate none [.read 0 1, .read 1 3, rival 0 1, rival 1 2] := by
  have hset : setWithAuditConfigs (etagOf 2) (some viewers) audited = .ok auditedViewers := rfl
  have hfresh : FreshEtags none [.read 0 1, .read 1 3, rival 0 1, rival 1 2] := ⟨by decide, by decide⟩
  refine ⟨hset, fun p hp => ?_, hfresh, (set_changes_named_fields rfl hset).2 _ _ hfresh⟩
  exact (set_changes_named_fields hp hset).1.mpr ⟨.inr (.inl ⟨rfl, rfl⟩), .inl rfl⟩

theorem unnamed_bindings_replaced :
    (apply (etagOf 2) false (some viewers) { updateMask := [ascii "etag"], policy := some {} } =
        .ok { etag := etagOf 2 } ∧
      ¬ Framed (some viewers) { updateMask := [ascii "etag"], policy := some {} } {} { etag := etagOf 2 }) ∧
    apply (etagOf 1) true none { updateMask := [ascii "etag"], policy := some { bindings := [viewer] } } =
        .ok viewers ∧
      ¬ Framed none { updateMask := [ascii "etag"], policy := some { bindings := [viewer] } }
        { bindings := [viewer] } viewers := by
  refine ⟨⟨rfl, fun h => ?_⟩, rfl, fun h => ?_⟩
  all_goals exact absurd h.bindings (by decide)

end CloudBurrow.Iam
