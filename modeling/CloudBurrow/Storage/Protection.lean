import CloudBurrow.Storage.Orderly

namespace CloudBurrow.Storage

open Utf8 Inventory Transaction Interleaving

theorem unnamed_valid : slash ∉ ([] : Bytes) ∧ Valid [] := by decide

def Guards (s : Store) (now : Time) (o : ObjectRecord) : Prop :=
  Protected ((s.get .bucket o.bucket).getD { named := unnamed_valid }) o now

def Stands (now : Time) (s s' : Store) : Prop :=
  ∀ slot o, slot ≠ .soft → o ∈ s.stock ⟨slot, objectKey o.bucket o.name⟩ → Guards s now o →
    ∃ o', SameVersion o o' ∧
      (o' ∈ s'.stock ⟨slot, objectKey o.bucket o.name⟩ ∨
        slot = .live ∧ ¬ Held o ∧
          (∃ b, s.get .bucket o.bucket = some b ∧ b.versioningEnabled = true) ∧
          o' ∈ s'.stock ⟨.kept, objectKey o.bucket o.name⟩)

def Careful (e : Env) (w : World) (p : Pending) (_ : List Pending) : Prop :=
  p.Heeds e w.server.store

theorem protected_version_stands {w : World} {left right : List Pending} {p : Pending} {e : Env}
    (h : Reach cloudBurrow Careful {} ⟨w, left ++ p :: right⟩)
    (hok : Careful e w p (left ++ right)) :
    Stands (p.time e) w.server.store (w.advance e p).2.server.store := by
  have horderly := orderly_of_reach (fun _ _ _ _ hok => hok) h
  have hchange := World.advance_change horderly.sound (horderly.entitled p (by simp)) hok
  intro slot o hslot ho hg
  obtain ⟨q, hset, o', ho', hs⟩ := hchange.preserves horderly.sound hslot ho hg
  refine ⟨o', hs, ?_⟩
  rcases hset with rfl | ⟨hlive, rfl, hheld, hversioned⟩
  · exact .inl ho'
  · exact .inr ⟨hlive, hheld, hversioned, ho'⟩

def shelfBucket : Bytes := ascii "shelf"

def ledger : Bytes := ascii "ledger"

def ledgerStored : World :=
  (({} : World).serve (.call (.insertBucket { name := shelfBucket, project := ascii "acme" }))
      [.tick 1]).serve
    (.upload { bucket := shelfBucket, upload := { name := ledger },
               blob := { id := [1], size := 1, crc32c := 0 } }) [.tick 2, .tick 2, .tick 2]

def holdLedger : Pending :=
  .call (.modify false
    { bucket := shelfBucket, name := ledger,
      body := { protection := { temporaryHold := .value (some true) } } })

def ledgerHeld : World := ledgerStored.serve holdLedger [.tick 3]

def deleteLedger : Pending := .call (.delete { bucket := shelfBucket, name := ledger })

theorem reach_ledgerStored {ok : Env → World → Pending → List Pending → Prop}
    (hok : ∀ e w p ps, p.Heeds e w.server.store → ok e w p ps) :
    Reach cloudBurrow ok {} ⟨ledgerStored, []⟩ := by
  refine .complete _ (.complete _ .start rfl ⟨hok _ _ _ _ trivial, ?_⟩ (by decide +kernel)) rfl ?_
    (by decide +kernel)
  · trivial
  · have hvalid : Valid ledger := by decide
    exact ⟨hok _ _ _ _ trivial, hok _ _ _ _ trivial, hok _ _ _ _ hvalid, trivial⟩

theorem heeds_holdLedger {e : Env} {w : World} {ps : List Pending} : Careful e w holdLedger ps := trivial

theorem heeds_deleteLedger {e : Env} {w : World} {ps : List Pending} : Careful e w deleteLedger ps := trivial

def moveLedger : Pending :=
  .move { source := { bucket := shelfBucket, name := ledger }, name := ascii "archive" }

def heldWhileMoving : World :=
  (ledgerStored.serve moveLedger [.tick 3, .tick 3]).serve holdLedger [.tick 4]

theorem ledger_ran : (cloudBurrow.drive [.tick 3] holdLedger ledgerStored).1.isNone = true ∧
    (cloudBurrow.drive [.tick 3, .tick 3] moveLedger ledgerStored).1.isSome = true ∧
    (cloudBurrow.drive [.tick 4] holdLedger (ledgerStored.serve moveLedger [.tick 3, .tick 3])).1.isNone = true ∧
    (heldWhileMoving.server.store.get .object (objectKey shelfBucket ledger)).isSome = true := by
  decide +kernel

theorem reach_ledgerHeld : Reach cloudBurrow Careful {} ⟨ledgerHeld, []⟩ := by
  have hstored : Reach cloudBurrow Careful {} ⟨ledgerStored, []⟩ :=
    reach_ledgerStored fun _ _ _ _ h => h
  exact reach_serve hstored holdLedger [.tick 3] rfl (Machine.along_one heeds_holdLedger) ledger_ran.1

theorem held_ledger_stands : (ledgerHeld.server.store.get .object (objectKey shelfBucket ledger)).any
        (fun o => o.temporaryHold) = true ∧
      Stands (deleteLedger.time (.tick 4)) ledgerHeld.server.store
        (ledgerHeld.advance (.tick 4) deleteLedger).2.server.store := by
  have harrived : Reach cloudBurrow Careful {} ⟨ledgerHeld, [] ++ deleteLedger :: []⟩ :=
    .step reach_ledgerHeld (.arrive rfl)
  refine ⟨by decide +kernel, ?_⟩
  exact protected_version_stands harrived heeds_deleteLedger

theorem moveLedger_waits :
    (cloudBurrow.drive [.tick 3, .tick 3] moveLedger ledgerStored).1.isSome = true := ledger_ran.2.1

def movingLedger : Pending :=
  (cloudBurrow.drive [.tick 3, .tick 3] moveLedger ledgerStored).1.get moveLedger_waits

theorem heldWhileMoving_some :
    (heldWhileMoving.server.store.get .object (objectKey shelfBucket ledger)).isSome = true := ledger_ran.2.2.2

def heldLedger : ObjectRecord :=
  (heldWhileMoving.server.store.get .object (objectKey shelfBucket ledger)).get heldWhileMoving_some

def afterMove : Store := (heldWhileMoving.advance (.tick 5) movingLedger).2.server.store

theorem ledger_moved : objectKey heldLedger.bucket heldLedger.name = objectKey shelfBucket ledger ∧
    afterMove.get .object (objectKey heldLedger.bucket heldLedger.name) = none ∧
    Shelf.noncurrent.read afterMove (objectKey heldLedger.bucket heldLedger.name) = [] := by
  decide +kernel

theorem heldLedger_live : heldLedger ∈ heldWhileMoving.server.store.stock
      ⟨.live, objectKey heldLedger.bucket heldLedger.name⟩ := by
  rw [ledger_moved.1]
  exact Store.mem_stock_live.mpr (Option.some_get heldWhileMoving_some).symm

theorem afterMove_empty (slot : Slot) (hslot : slot ≠ .soft) (o : ObjectRecord) :
    o ∉ afterMove.stock ⟨slot, objectKey heldLedger.bucket heldLedger.name⟩ := by
  intro ho
  cases slot with
  | live =>
    rw [Store.mem_stock_live, ledger_moved.2.1] at ho
    cases ho
  | kept =>
    have hmem := (Store.mem_stock_shelf .noncurrent).mp ho
    rw [ledger_moved.2.2] at hmem
    cases hmem
  | soft => exact hslot rfl

theorem reach_heldWhileMoving :
    Reach cloudBurrow (fun _ _ _ _ => True) {} ⟨heldWhileMoving, [] ++ movingLedger :: []⟩ := by
  have hstored : Reach cloudBurrow (fun _ _ _ _ => True) {} ⟨ledgerStored, []⟩ :=
    reach_ledgerStored fun _ _ _ _ _ => trivial
  have harrives : cloudBurrow.arrives moveLedger := rfl
  have hmoving := Reach.pause [.tick 3, .tick 3] hstored harrives
    (Machine.along_free _ _ _ _ _) moveLedger_waits
  exact reach_serve hmoving holdLedger [.tick 4] rfl (Machine.along_free _ _ _ _ _) ledger_ran.2.2.1

theorem held_ledger_moved_away : ¬ ∀ (w : World) (left right : List Pending) (p : Pending) (e : Env),
      Reach cloudBurrow (fun _ _ _ _ => True) {} ⟨w, left ++ p :: right⟩ →
        Stands (p.time e) w.server.store (w.advance e p).2.server.store := by
  intro hall
  have hstands := hall heldWhileMoving [] [] movingLedger (.tick 5) reach_heldWhileMoving
  have hheld : heldLedger.temporaryHold = true := by decide +kernel
  obtain ⟨o', -, hafter⟩ := hstands .live heldLedger (by simp) heldLedger_live (.inl (.inl hheld))
  rcases hafter with hafter | ⟨-, -, -, hafter⟩
  · exact afterMove_empty .live (by simp) o' hafter
  · exact afterMove_empty .kept (by simp) o' hafter

end CloudBurrow.Storage
