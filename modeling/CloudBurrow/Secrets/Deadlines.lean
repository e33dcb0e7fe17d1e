import CloudBurrow.Process.Triple
import CloudBurrow.Secrets.Store

namespace CloudBurrow.Secrets

open Utf8 Transaction World
open Tasks (Time)

structure Earliest (times : Set Time) (next : Time) : Prop where
  mem : next ≠ 0 → next ∈ times
  le : ∀ t ∈ times, t ≠ 0 → next ≠ 0 ∧ next ≤ t

namespace Earliest
variable {times others : Set Time} {a b t : Time}

theorem empty : Earliest ∅ 0 := ⟨fun h => absurd rfl h, fun _ ht => absurd ht (Set.notMem_empty _)⟩

theorem one (t : Time) : Earliest {t} t := by
  refine ⟨fun _ => rfl, ?_⟩
  rintro u rfl hu
  exact ⟨hu, le_refl u⟩

theorem union (ha : Earliest times a) (hb : Earliest others b) : Earliest (times ∪ others) (soonest a b) := by
  unfold soonest
  split_ifs with hsooner
  · refine ⟨fun hne => Or.inr (hb.mem hne), ?_⟩
    rintro u (hu | hu) hset
    · obtain ⟨hne, hle⟩ := ha.le u hu hset
      exact ⟨hsooner.1, (hsooner.2.resolve_left hne).le.trans hle⟩
    · exact hb.le u hu hset
  · refine ⟨fun hne => Or.inl (ha.mem hne), ?_⟩
    rintro u (hu | hu) hset
    · exact ha.le u hu hset
    · obtain ⟨hne, hle⟩ := hb.le u hu hset
      rw [not_and, not_or, not_lt] at hsooner
      exact ⟨(hsooner hne).1, (hsooner hne).2.trans hle⟩

theorem fold {ι : Type} (f : ι → Time) (l : List ι) (h : Earliest times a) :
    Earliest (times ∪ {t | ∃ e ∈ l, t = f e}) (l.foldl (fun next e => soonest next (f e)) a) := by
  induction l generalizing times a with
  | nil => simpa using h
  | cons e rest ih =>
    have hrest := ih (h.union (one (f e)))
    have hset : {t | ∃ d ∈ e :: rest, t = f d} = {f e} ∪ {t | ∃ d ∈ rest, t = f d} := by
      ext u
      simp
    rw [hset, ← Set.union_assoc]
    exact hrest

end Earliest

def Secret.ahead (sec : Secret) : Set Time :=
  {sec.nextRotation} ∪ {t | ∃ n : Int, sec.scheduledDestroys[n]? = some t}

def Secret.times (sec : Secret) : Set Time := {sec.expire} ∪ sec.ahead

def Secret.rotates (sec : Secret) (t : Time) : Prop := sec.nextRotation ≠ 0 ∧ sec.nextRotation ≤ t

instance (sec : Secret) (t : Time) : Decidable (sec.rotates t) := inferInstanceAs (Decidable (_ ∧ _))

def Secret.settled (sec : Secret) (t : Time) : Secret :=
  { (if sec.rotates t then sec.rotated t else sec) with
    scheduledDestroys := sec.scheduledDestroys.filter fun _ time => decide (t < time) }

def Secret.after (sec : Secret) (t : Time) : Option Secret :=
  if sec.expired t then none else some (sec.settled t)

variable {sec : Secret}

section Settled
variable {sec : Secret} {t : Time}

section Idle

variable (hexpire : sec.expire = 0) (hrotation : sec.nextRotation = 0) (hempty : sec.scheduledDestroys.isEmpty)
include hexpire hrotation hempty

end Idle

end Settled

section Primitives

variable {pre : Session → Prop} {fail : Session → Prop}

variable {post : Unit → Session → Prop}

end Primitives

structure Going (R : SecretMap → VersionMap → Prop)
    (s : Session) : Prop where
  records : R s.world.secrets s.world.versions
  puts : ∀ b ∈ s.puts, b = true
  deletes : ∀ b ∈ s.deletes, b = true

abbrev Holds (m : SecretMap) : Session → Prop := Going fun secrets _ => secrets = m

section Going
variable {R R' : SecretMap → VersionMap → Prop}
  {host : Host} {k : Bytes} {sec : Secret} {t : Time} {F : Session → Prop}

end Going

section Holds
variable {m : SecretMap} {host : Host} {k : Bytes} {sec : Secret} {t : Time}
  {F : Session → Prop}

variable {m' : SecretMap}

def Turned (t : Time) (names : List Bytes) (m m' : SecretMap) : Prop :=
  ∀ k : Bytes, m'[k]? = if k ∈ names then m[k]?.bind (·.after t) else m[k]?

theorem Turned.cons {rest : List Bytes} {m₁ : SecretMap} (hk : k ∉ rest)
    (hself : m₁[k]? = m[k]?.bind (·.after t)) (hother : ∀ k' : Bytes, k' ≠ k → m₁[k']? = m[k']?)
    (h : Turned t rest m₁ m') : Turned t (k :: rest) m m' := by
  intro k'
  rw [h k']
  by_cases hsame : k' = k
  · subst hsame
    rw [if_neg hk, if_pos List.mem_cons_self, hself]
  · simp only [List.mem_cons, hsame, false_or, hother k' hsame]

end Holds

structure Version.Erased (v : Version) : Prop where
  state : v.state = .destroyed
  unscheduled : v.scheduledDestroy = 0
  payload : v.payload = []

-- until the sweep has come to the secret its version may still stand
def Tracked (k₀ : Bytes) (sec : Secret) (n : Int) (v : Version) (waiting : Prop)
    (secrets : SecretMap) (versions : VersionMap) : Prop :=
  (waiting → secrets[k₀]? = some sec) ∧
    (waiting ∧ versions[k₀]?.bind (·[n]?) = some v ∨ ∃ v' ∈ versions[k₀]?.bind (·[n]?), v'.Erased)

section Destroying
variable {R R' : SecretMap → VersionMap → Prop}
  {host : Host} {k k₀ : Bytes} {sec : Secret} {n : Int} {v : Version} {t : Time} {waiting : Prop} {F : Session → Prop}

variable {secrets secrets' : SecretMap} {versions versions' : VersionMap}

theorem Tracked.same (h : Tracked k₀ sec n v waiting secrets versions)
    (hsecrets : secrets'[k₀]? = secrets[k₀]?) (hversions : versions'[k₀]? = versions[k₀]?) :
    Tracked k₀ sec n v waiting secrets' versions' := by
  unfold Tracked at h ⊢
  rwa [hsecrets, hversions]

theorem Tracked.put {w : World} {v' : Version} (h : Tracked k₀ sec n v waiting w.secrets w.versions) (d e : Time) :
    Tracked k₀ sec n v waiting w.secrets (putVersion w k v'.number (v'.erased d e)).versions := by
  change Tracked _ _ _ _ _ _ (w.versions.insert k _)
  by_cases hk : k = k₀
  · subst hk
    refine ⟨h.1, ?_⟩
    simp only [Std.ExtTreeMap.getElem?_insert_self, Option.bind_some, Std.ExtTreeMap.getElem?_insert]
    split_ifs
    · exact .inr ⟨_, rfl, rfl, rfl, rfl⟩
    · have hrest := h.2
      cases hget : w.versions[k]? <;> simp_all
  · exact h.same rfl (by simp [Std.ExtTreeMap.getElem?_insert, hk])

end Destroying

section Sweep

variable {host : Host} {s s' : Session} {next : Time}

theorem Turned.found {t : Time} {m m' : SecretMap} (h : Turned t m.keys m m') (k : Bytes) :
    m'[k]? = m[k]?.bind (·.after t) := by
  rw [h k]
  split_ifs with hk
  · rfl
  · rw [Std.ExtTreeMap.mem_keys] at hk
    rw [Std.ExtTreeMap.getElem?_eq_none hk]
    rfl

end Sweep

def minutely : Secret :=
  { name := ascii "projects/p/secrets/s", created := 1, labels := [], annotations := []
    replication := .automatic, replicaLocations := [], kmsKeys := [], nextVersion := 2, etag := 1
    iamPolicy := none, expire := 0, topics := [ascii "projects/p/topics/t"]
    nextRotation := 10 * Tasks.second, rotationPeriod := 60 * Tasks.second, versionDestroyTTL := 0
    scheduledDestroys := Std.ExtTreeMap.empty.insert 1 (90 * Tasks.second) }

def passing : Secret := { minutely with name := ascii "projects/p/secrets/old", expire := 50 * Tasks.second }

end CloudBurrow.Secrets
