import CloudBurrow.Storage.Stages

namespace CloudBurrow.Storage

open Utf8 Inventory Transaction Interleaving

theorem World.advance_server (e : Env) (p : Pending) (w : World) :
    (w.advance e p).2.server = (w.server.update e (p.step e)).2 := by
  unfold World.advance
  rcases w.server.update e (p.step e) with ⟨r, s⟩
  rcases r with err | ⟨p', events⟩ <;> rfl

variable {e : Env} {p : Pending} {w : World}

theorem World.advance_next {p' : Pending} (h : p' ∈ (w.advance e p).1) :
    ∃ events tx, p.step e (w.server.tx e) = (.ok (some p', events), tx) ∧
      (w.advance e p).2.server = { store := tx.store, lastGen := tx.lastGen, outboxSeq := tx.outboxSeq } := by
  unfold World.advance Server.update at h ⊢
  rcases hstep : p.step e (w.server.tx e) with ⟨r, tx⟩
  rw [hstep] at h
  rcases r with err | ⟨q, events⟩
  · cases h
  · cases h
    exact ⟨events, tx, rfl, rfl⟩

def Env.tick (t : Time) : Env := { now := t, clock := [t] }

def World.serve (w : World) (p : Pending) (es : List Env) : World := (cloudBurrow.drive es p w).2

theorem reach_serve {ok : Env → World → Pending → List Pending → Prop}
    {ps : List Pending} (h : Reach cloudBurrow ok {} ⟨w, ps⟩) (p : Pending) (es : List Env)
    (hl : p.arrives = true) (hok : cloudBurrow.Along ok ps es p w)
    (hdone : (cloudBurrow.drive es p w).1.isNone = true) :
    Reach cloudBurrow ok {} ⟨w.serve p es, ps⟩ :=
  .complete es h hl hok hdone

def Pending.ticket (p : Pending) : Option Int := p.drawn.map ObjectRecord.generation

structure Orderly (a : Sys World Pending) : Prop where
  sound : a.shared.server.catalogue.Sound
  entitled : ∀ p ∈ a.running, Entitled a.shared.server.catalogue p
  apart : (a.running.filterMap Pending.ticket).Nodup

theorem sound_empty : ({} : Server).catalogue.Sound := by
  have hget : ∀ (k : Kind) (key : Bytes), Store.empty.get k key = none := fun k key => by
    simp [Store.get, Store.empty]
  have hstock : ∀ p, ∀ o, o ∉ Store.empty.stock p := by
    rintro ⟨slot, key⟩ o ho
    cases slot <;> simp [Store.stock, Shelf.read, hget] at ho
  refine ⟨fun name b hb => ?_, fun p o ho => absurd ho (hstock p o), ⟨fun p => ?_, ?_⟩,
    fun p o ho => absurd ho (hstock p o)⟩
  · have h : Store.empty.get .bucket name = some b := hb
    rw [hget] at h
    cases h
  · have hzero : Store.empty.stock p = 0 := Multiset.eq_zero_of_forall_notMem (hstock p)
    have hp : ({} : Server).catalogue.stock p = 0 := hzero
    rw [hp]
    exact Multiset.nodup_zero
  · exact fun p q x y _ hx _ => absurd hx (hstock p x)

theorem mem_ticket {t : Int} (h : t ∈ p.ticket) : ∃ o ∈ p.drawn, o.generation = t := by
  simpa [Pending.ticket] using h

theorem ticket_apart {left right : List Pending} {l : Pending} {t : Int}
    (h : ((left ++ l :: right).filterMap Pending.ticket).Nodup) (hl : t ∈ l.ticket)
    (hp : p ∈ left ++ right) : t ∉ p.ticket := by
  intro hpt
  rw [List.filterMap_append, List.filterMap_cons_some hl, List.nodup_middle, List.nodup_cons,
    ← List.filterMap_append] at h
  exact h.1 (List.mem_filterMap.mpr ⟨p, hp, hpt⟩)

theorem Entitled.others {now : Time} {c c' : Catalogue} {l : Pending} (hp : Entitled c p)
    (h : Change now (l.grant c) c c') (hne : ∀ t ∈ l.ticket, t ∉ p.ticket) : Entitled c' p := by
  refine ⟨hp.formed, fun o ho => h.fresh ?_ (hp.fresh o ho), fun o ho => (hp.bound o ho).trans h.lastGen⟩
  rintro key (⟨x, hx, -, hgen⟩ | hlt)
  · exact hne x.generation (Option.mem_map_of_mem _ hx) (hgen ▸ Option.mem_map_of_mem _ ho)
  · exact absurd (hp.bound o ho) (by omega)

theorem Entitled.launched {s : Server} {tx : Tx} (hs : s.catalogue.Sound) (h : Launched (s.tx e) tx p) :
    Entitled ({ store := tx.store, lastGen := tx.lastGen, outboxSeq := tx.outboxSeq } : Server).catalogue
      p := by
  refine ⟨h.formed, fun o ho => ?_, fun o ho => (h.drew o ho).last.ge⟩
  have hstock : tx.store = s.store := (h.drew o ho).store
  have hfresh := hs.fresh (h.drew o ho).later
  exact hstock ▸ hfresh

theorem World.advance_change (hs : w.server.catalogue.Sound)
    (hp : Entitled w.server.catalogue p) (hok : p.Heeds e w.server.store) :
    Change (p.time e) (p.grant w.server.catalogue) w.server.catalogue (w.advance e p).2.server.catalogue := by
  rw [World.advance_server]
  have htx : (w.server.tx e).catalogue.Sound := hs
  exact Server.update_change (Pending.step_change htx hp hok)

theorem orderly_step {left right : List Pending}
    (h : Orderly ⟨w, left ++ p :: right⟩) (hok : p.Heeds e w.server.store) :
    Orderly ⟨(w.advance e p).2, left ++ (w.advance e p).1.toList ++ right⟩ := by
  have hp := h.entitled p (by simp)
  have hchange := World.advance_change h.sound hp hok
  have hothers : ∀ q ∈ left ++ right, Entitled w.server.catalogue q := fun q hq =>
    h.entitled q (by
      simp only [List.mem_append, List.mem_cons] at hq ⊢
      tauto)
  refine ⟨hchange.sound h.sound, fun q hq => ?_, nodup_tickets h.apart ?_⟩
  · rcases mem_others hq with hq | hq
    · obtain ⟨events, tx, hstep, hserver⟩ := World.advance_next hq
      simp only [hserver]
      exact .launched h.sound (Pending.step_launched hstep)
    · exact (hothers q hq).others hchange fun t ht => ticket_apart h.apart ht hq
  · intro q hq t ht x hx hxt
    obtain ⟨events, tx, hstep, -⟩ := World.advance_next hq
    obtain ⟨o, ho, rfl⟩ := mem_ticket ht
    obtain ⟨y, hy, hgen⟩ := mem_ticket hxt
    have hlater : w.server.lastGen < o.generation := ((Pending.step_launched hstep).drew o ho).later
    have hbound : y.generation ≤ w.server.lastGen := (hothers x hx).bound y hy
    omega

theorem orderly_of_reach {ok : Env → World → Pending → List Pending → Prop}
    (hok : ∀ e w p others, ok e w p others → p.Heeds e w.server.store) {a : Sys World Pending}
    (h : Reach cloudBurrow ok {} a) : Orderly a := by
  have hstart : Orderly ⟨{}, []⟩ := ⟨sound_empty, by simp, by simp⟩
  refine Reach.invariant hstart ?_ ?_ h
  · intro w ps p hp hi
    have hnone : p.drawn = none ∧ p.Formed := by
      cases p <;> first | exact ⟨rfl, trivial⟩ | cases hp
    refine ⟨hi.sound, fun q hq => ?_, ?_⟩
    · rcases List.mem_cons.mp hq with rfl | hq
      · exact ⟨hnone.2, by simp [hnone.1], by simp [hnone.1]⟩
      · exact hi.entitled q hq
    · rw [List.filterMap_cons_none (by rw [Pending.ticket, hnone.1]; rfl)]
      exact hi.apart
  · intro w e left p right hrun hi
    exact orderly_step hi (hok e w p _ hrun)

end CloudBurrow.Storage
