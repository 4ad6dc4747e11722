import Libsax.Lib.Bytes

/-! Streams of frames. A frame says how many bytes it has, the most significant byte
first, and then has them. -/
namespace Libsax.Lib.Frames

variable {width : Nat} {stream left right body rest other : List UInt8}
  {bodies others : List (List UInt8)}

/-- The length at the start of some bytes. -/
def declared (width : Nat) (bytes : List UInt8) : Nat := Bytes.decode (bytes.take width).reverse

def frame (width : Nat) (body : List UInt8) : List UInt8 :=
  (Bytes.encode width body.length).reverse ++ body

/-- Whole frames, and then bytes that are not yet one. -/
structure Splits (width : Nat) (stream : List UInt8) (bodies : List (List UInt8))
    (rest : List UInt8) : Prop where
  framed : stream = (bodies.map (frame width)).flatten ++ rest
  sized : ∀ body ∈ bodies, body.length < 256 ^ width
  short : rest.length < width + declared width rest

@[simp] theorem frame_length (width : Nat) (body : List UInt8) :
    (frame width body).length = width + body.length := by
  simp [frame]

private theorem declared_frame (hsized : body.length < 256 ^ width) (rest : List UInt8) :
    declared width (frame width body ++ rest) = body.length := by
  unfold declared frame
  rw [List.append_assoc, List.take_left' (by simp), List.reverse_reverse, Bytes.decode_encode,
    Nat.mod_eq_of_lt hsized]

private theorem exists_frame (hlong : width + declared width stream ≤ stream.length) :
    ∃ body rest, stream = frame width body ++ rest ∧ body.length < 256 ^ width := by
  have htake : (stream.take width).reverse.length = width := by
    rw [List.length_reverse, List.length_take]
    omega
  have hbody : ((stream.drop width).take (declared width stream)).length =
      declared width stream := by
    rw [List.length_take, List.length_drop]
    omega
  refine ⟨(stream.drop width).take (declared width stream),
    (stream.drop width).drop (declared width stream), ?_, ?_⟩
  · have hheader := Bytes.encode_decode (stream.take width).reverse
    rw [htake] at hheader
    rw [frame, hbody, declared, hheader, List.reverse_reverse, List.append_assoc,
      List.take_append_drop, List.take_append_drop]
  · have hlt := Bytes.decode_lt (stream.take width).reverse
    rw [htake] at hlt
    rw [hbody]
    exact hlt

theorem Splits.cons (hsized : body.length < 256 ^ width) (hsplits : Splits width stream bodies rest) :
    Splits width (frame width body ++ stream) (body :: bodies) rest where
  framed := by rw [hsplits.framed, List.map_cons, List.flatten_cons, List.append_assoc]
  sized := List.forall_mem_cons.mpr ⟨hsized, hsplits.sized⟩
  short := hsplits.short

theorem splits_nil (hshort : rest.length < width + declared width rest) :
    Splits width rest [] rest where
  framed := rfl
  sized := by simp
  short := hshort

theorem short_nil (hwidth : 0 < width) : ([] : List UInt8).length < width + declared width [] :=
  Nat.lt_of_lt_of_le hwidth (Nat.le_add_right width _)

theorem Splits.tail (hsplits : Splits width stream (body :: bodies) rest) :
    ∃ after, stream = frame width body ++ after ∧ body.length < 256 ^ width ∧
      Splits width after bodies rest := by
  obtain ⟨hbody, hbodies⟩ := List.forall_mem_cons.mp hsplits.sized
  refine ⟨(bodies.map (frame width)).flatten ++ rest, ?_, hbody, rfl, hbodies, hsplits.short⟩
  rw [hsplits.framed, List.map_cons, List.flatten_cons, List.append_assoc]

theorem Splits.length_le (hwidth : 0 < width) (hsplits : Splits width stream bodies rest) :
    bodies.length ≤ stream.length := by
  induction bodies generalizing stream with
  | nil => exact Nat.zero_le _
  | cons body bodies ih =>
    obtain ⟨after, hstream, -, hafter⟩ := hsplits.tail
    have hbehind := ih hafter
    rw [hstream, List.length_append, frame_length, List.length_cons]
    omega

private theorem exists_splits (hwidth : 0 < width) (stream : List UInt8) :
    ∃ bodies rest, Splits width stream bodies rest := by
  by_cases hshort : stream.length < width + declared width stream
  · exact ⟨[], stream, splits_nil hshort⟩
  · obtain ⟨body, after, hstream, hsized⟩ := exists_frame (Nat.not_lt.mp hshort)
    have hless : after.length < stream.length := by
      rw [hstream, List.length_append, frame_length]
      omega
    obtain ⟨bodies, rest, hafter⟩ := exists_splits hwidth after
    exact ⟨body :: bodies, rest, hstream ▸ hafter.cons hsized⟩
termination_by stream.length

private theorem frame_inj (hbody : body.length < 256 ^ width) (hother : other.length < 256 ^ width)
    (heq : frame width body ++ left = frame width other ++ right) :
    body = other ∧ left = right := by
  have hlength : body.length = other.length := by
    rw [← declared_frame hbody left, heq, declared_frame hother]
  obtain ⟨hframe, hrest⟩ := List.append_inj heq (by rw [frame_length, frame_length, hlength])
  exact ⟨(List.append_inj hframe (by simp)).2, hrest⟩

theorem not_short_frame (hsized : body.length < 256 ^ width) (rest : List UInt8) :
    ¬(frame width body ++ rest).length <
      width + declared width (frame width body ++ rest) := by
  rw [declared_frame hsized, List.length_append, frame_length]
  omega

theorem Splits.unique (hleft : Splits width stream bodies rest)
    (hright : Splits width stream others other) : bodies = others ∧ rest = other := by
  induction bodies generalizing stream others with
  | nil =>
    have hstream : stream = rest := hleft.framed
    cases others with
    | nil => exact ⟨rfl, hstream.symm.trans hright.framed⟩
    | cons body others =>
      obtain ⟨after, hframe, hsized, -⟩ := hright.tail
      exact absurd (hframe ▸ hstream ▸ hleft.short) (not_short_frame hsized after)
  | cons body bodies ih =>
    obtain ⟨after, hframe, hsized, hafter⟩ := hleft.tail
    cases others with
    | nil =>
      have hstream : stream = other := hright.framed
      exact absurd (hframe ▸ hstream ▸ hright.short) (not_short_frame hsized after)
    | cons head others =>
      obtain ⟨later, hhead, hheadSized, hlater⟩ := hright.tail
      obtain ⟨rfl, rfl⟩ := frame_inj hsized hheadSized (hframe.symm.trans hhead)
      obtain ⟨rfl, hrest⟩ := ih hafter hlater
      exact ⟨rfl, hrest⟩

theorem Splits.append (hleft : Splits width left bodies rest)
    (hright : Splits width (rest ++ right) others other) :
    Splits width (left ++ right) (bodies ++ others) other where
  framed := by
    rw [hleft.framed, List.append_assoc, hright.framed, List.map_append, List.flatten_append,
      List.append_assoc]
  sized := List.forall_mem_append.mpr ⟨hleft.sized, hright.sized⟩
  short := hright.short

theorem Splits.divide (hwidth : 0 < width) (hsplits : Splits width (left ++ right) bodies rest) :
    ∃ early late middle, bodies = early ++ late ∧ Splits width left early middle ∧
      Splits width (middle ++ right) late rest := by
  obtain ⟨early, middle, hearly⟩ := exists_splits hwidth left
  obtain ⟨late, last, hlate⟩ := exists_splits hwidth (middle ++ right)
  obtain ⟨rfl, rfl⟩ := hsplits.unique (hearly.append hlate)
  exact ⟨early, late, middle, rfl, hearly, hlate⟩

end Libsax.Lib.Frames
