import CloudBurrow.ChangeStreams.Log

namespace CloudBurrow.ChangeStreams

open Utf8

structure ChunkInfo where
  size : Int
  offset : Int
  last : Bool
deriving DecidableEq

structure Chunk where
  info : Option ChunkInfo
  mutation : Mutation
deriving DecidableEq

structure Header where
  row : Bytes
  cluster : Bytes
  commit : Int
deriving DecidableEq

structure DataMessage where
  header : Option Header
  chunks : List Chunk
  done : Option (Int × Int)
deriving DecidableEq

def maxChunkBytes : Nat := 2 ^ 20

def int32 (n : Nat) : Int := (n : Int).bmod (2 ^ 32)

def pieces (cell : Cell) (total : Nat) : Nat → Nat → Bytes → List Chunk
  | 0, _, _ => []
  | fuel + 1, offset, rest =>
    if rest = [] then []
    else
      ⟨some ⟨int32 total, int32 offset, offset + min maxChunkBytes rest.length == total⟩,
        .setCell cell (rest.take maxChunkBytes)⟩ ::
        pieces cell total fuel (offset + maxChunkBytes) (rest.drop maxChunkBytes)

def chunksOf (m : Mutation) : List Chunk :=
  match m with
  | .setCell cell value =>
    if value.length ≤ maxChunkBytes then [⟨none, m⟩]
    else pieces cell value.length value.length 0 value
  | .other _ => [⟨none, m⟩]

def groupsFrom : List Chunk → List Chunk → List (List Chunk) × List Chunk
  | [], cur => ([], cur)
  | ch :: rest, cur =>
    if ch.info.isSome then
      let r := groupsFrom rest []
      ((cur ++ [ch]) :: r.1, r.2)
    else groupsFrom rest (cur ++ [ch])

def groups (chunks : List Chunk) : List (List Chunk) :=
  let r := groupsFrom chunks []
  if r.2 ≠ [] ∨ r.1 = [] then r.1 ++ [r.2] else r.1

def messagesFrom (done : Int × Int) : Option Header → List (List Chunk) → List DataMessage
  | _, [] => []
  | header, [g] => [⟨header, g, some done⟩]
  | header, g :: rest => ⟨header, g, none⟩ :: messagesFrom done none rest

def Record.header (r : Record) : Header := ⟨r.row, r.cluster, r.commit⟩

def dataChangeMessages (r : Record) (mark : Int) : List DataMessage :=
  messagesFrom (r.seq, mark) (some r.header) (groups (r.mutations.flatMap chunksOf))

def join : Bytes → List Chunk → List Mutation
  | _, [] => []
  | held, ch :: rest =>
    match ch.info, ch.mutation with
    | some info, .setCell cell value =>
      if info.last then .setCell cell (held ++ value) :: join [] rest else join (held ++ value) rest
    | _, m => m :: join [] rest

structure Receiving where
  header : Option Header
  chunks : List Chunk
deriving DecidableEq

def Receiving.none : Receiving := ⟨.none, []⟩

def Receiving.take (st : Receiving) (m : DataMessage) : Receiving :=
  ⟨st.header.or m.header, st.chunks ++ m.chunks⟩

def Receiving.record (st : Receiving) (seq : Int) : List Record :=
  match st.header with
  | .none => []
  | some h => [⟨seq, h.row, h.cluster, h.commit, join [] st.chunks⟩]

def receiveFrom : Receiving → List DataMessage → List Record
  | _, [] => []
  | st, m :: rest =>
    match m.done with
    | none => receiveFrom (st.take m) rest
    | some done => (st.take m).record done.1 ++ receiveFrom .none rest

def receive (messages : List DataMessage) : List Record := receiveFrom .none messages

def pendingFrom : Receiving → List DataMessage → Receiving
  | st, [] => st
  | st, m :: rest => pendingFrom (if m.done.isSome then .none else st.take m) rest

theorem receiveFrom_append (st : Receiving) (xs ys : List DataMessage) :
    receiveFrom st (xs ++ ys) = receiveFrom st xs ++ receiveFrom (pendingFrom st xs) ys := by
  induction xs generalizing st with
  | nil => rfl
  | cons m xs ih =>
    rw [List.cons_append, receiveFrom, receiveFrom, pendingFrom]
    cases hdone : m.done with
    | none => exact ih (st.take m)
    | some done =>
      rw [Option.isSome_some, if_pos rfl]
      dsimp only
      rw [ih, List.append_assoc]

theorem pendingFrom_append (st : Receiving) (xs ys : List DataMessage) :
    pendingFrom st (xs ++ ys) = pendingFrom (pendingFrom st xs) ys := by
  induction xs generalizing st with
  | nil => rfl
  | cons m xs ih => rw [List.cons_append, pendingFrom, pendingFrom, ih]

section Grouping

theorem groupsFrom_flatten (chunks cur : List Chunk) :
    (groupsFrom chunks cur).1.flatten ++ (groupsFrom chunks cur).2 = cur ++ chunks := by
  induction chunks generalizing cur with
  | nil => simp [groupsFrom]
  | cons ch rest ih =>
    unfold groupsFrom
    split_ifs
    · have hrest := ih []
      dsimp only
      rw [List.flatten_cons, List.append_assoc, hrest]
      simp
    · rw [ih]
      simp

theorem groups_flatten (chunks : List Chunk) : (groups chunks).flatten = chunks := by
  have h := groupsFrom_flatten chunks []
  unfold groups
  dsimp only
  split_ifs with hlast
  · rw [List.flatten_append, List.flatten_singleton, h, List.nil_append]
  · rw [not_or, not_not] at hlast
    rw [hlast.1, List.append_nil] at h
    rw [h, List.nil_append]

theorem groups_ne_nil (chunks : List Chunk) : groups chunks ≠ [] := by
  unfold groups
  dsimp only
  split_ifs with hlast
  · simp
  · rw [not_or] at hlast
    exact hlast.2

end Grouping

theorem join_pieces (cell : Cell) (total fuel offset : Nat) (held rest : Bytes) (chunks : List Chunk)
    (hfuel : rest.length ≤ fuel) (htotal : offset + rest.length = total) (hne : rest ≠ []) :
    join held (pieces cell total fuel offset rest ++ chunks) =
      .setCell cell (held ++ rest) :: join [] chunks := by
  induction fuel generalizing offset held rest with
  | zero =>
    have hnil := List.eq_nil_of_length_eq_zero (Nat.le_zero.mp hfuel)
    exact absurd hnil hne
  | succ fuel ih =>
    have hpos : 0 < rest.length := List.length_pos_iff.mpr hne
    have hmax : 0 < maxChunkBytes := by decide
    unfold pieces
    rw [if_neg hne, List.cons_append, join]
    dsimp only
    by_cases hlast : rest.length ≤ maxChunkBytes
    · have hend : (offset + min maxChunkBytes rest.length == total) = true := by
        rw [beq_iff_eq]
        omega
      have hdrop : rest.drop maxChunkBytes = [] := List.drop_of_length_le hlast
      have hnone : pieces cell total fuel (offset + maxChunkBytes) [] = [] := by
        cases fuel <;> rfl
      rw [if_pos hend, hdrop, hnone, List.nil_append, List.take_of_length_le hlast]
    · have hend : ¬ (offset + min maxChunkBytes rest.length == total) = true := by
        rw [beq_iff_eq]
        omega
      have hrest : rest.drop maxChunkBytes ≠ [] := by
        intro hnil
        have hlength := congrArg List.length hnil
        rw [List.length_drop, List.length_nil] at hlength
        omega
      rw [if_neg hend, ih (offset + maxChunkBytes) (held ++ rest.take maxChunkBytes) (rest.drop maxChunkBytes)
        (by rw [List.length_drop]; omega) (by rw [List.length_drop]; omega) hrest, List.append_assoc,
        List.take_append_drop]

theorem join_chunksOf_append (m : Mutation) (chunks : List Chunk) :
    join [] (chunksOf m ++ chunks) = m :: join [] chunks := by
  cases m with
  | other encoded => rfl
  | setCell cell value =>
    unfold chunksOf
    dsimp only
    split_ifs with hsmall
    · rfl
    · have hne : value ≠ [] := by
        rintro rfl
        exact hsmall (Nat.zero_le _)
      rw [join_pieces cell value.length value.length 0 [] value _ (le_refl _) (by omega) hne, List.nil_append]

theorem join_chunksOf (ms : List Mutation) : join [] (ms.flatMap chunksOf) = ms := by
  induction ms with
  | nil => rfl
  | cons m ms ih => rw [List.flatMap_cons, join_chunksOf_append, ih]

theorem receiveFrom_messagesFrom (done : Int × Int) (gs : List (List Chunk)) (hne : gs ≠ [])
    (header : Option Header) (st : Receiving) :
    receiveFrom st (messagesFrom done header gs) =
      Receiving.record ⟨st.header.or header, st.chunks ++ gs.flatten⟩ done.1 ∧
      pendingFrom st (messagesFrom done header gs) = .none := by
  induction gs generalizing header st with
  | nil => exact absurd rfl hne
  | cons g rest ih =>
    cases rest with
    | nil => simp [messagesFrom, receiveFrom, pendingFrom, Receiving.take]
    | cons g' rest =>
      have hrest := ih (List.cons_ne_nil _ _) none (st.take ⟨header, g, none⟩)
      refine ⟨hrest.1.trans ?_, hrest.2⟩
      simp [Receiving.take]

theorem receive_dataChangeMessages (r : Record) (mark : Int) :
    receive (dataChangeMessages r mark) = [r] ∧ pendingFrom .none (dataChangeMessages r mark) = .none := by
  have h := receiveFrom_messagesFrom (r.seq, mark) _ (groups_ne_nil (r.mutations.flatMap chunksOf))
    (some r.header) .none
  refine ⟨h.1.trans ?_, h.2⟩
  rw [groups_flatten]
  simp [Receiving.none, Receiving.record, Record.header, join_chunksOf]

end CloudBurrow.ChangeStreams
