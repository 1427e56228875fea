import FlashLog.Sinks.Format

/-!
The loop of `DecodeChunkData` over the items of a chunk, as far as it moves through the
file: what is done with an item's payload is left to the caller.
-/

set_option autoImplicit false
set_option relaxedAutoImplicit false

namespace FlashLog.Decode

open FlashLog.Support
open FlashLog.Sinks

inductive ItemError
  /-- `DecodeItemData: itemHeader magic invalid` -/
  | magic
  /-- a read outside the file's bytes, which the source does not check -/
  | outOfRange
  deriving DecidableEq

/-- The items from `offset` on of a chunk of `size` bytes; `data` is everything in the file
behind the chunk's header. -/
def decodeItems (data : Bytes) (size offset : Nat) : Except ItemError (List Bytes) :=
  if offset < size then
    if data.length < offset + ItemHeader.length then .error .outOfRange
    else if Bytes.toNatLE (Bytes.slice data offset 4) ≠ ItemHeader.kMagic then .error .magic
    else
      let itemSize := Bytes.toNatLE (Bytes.slice data (offset + 4) 4)
      if data.length < offset + ItemHeader.length + itemSize then .error .outOfRange
      else do
        let rest ← decodeItems data size (offset + ItemHeader.length + itemSize)
        return Bytes.slice data (offset + ItemHeader.length) itemSize :: rest
  else .ok []
termination_by size - offset
decreasing_by
  have hpos : 0 < ItemHeader.length := by decide
  omega

theorem decodeItems_turn {data : Bytes} {size offset itemSize : Nat} (hmore : offset < size)
    (whole : offset + ItemHeader.length + itemSize ≤ data.length)
    (hmagic : Bytes.toNatLE (Bytes.slice data offset 4) = ItemHeader.kMagic)
    (hsize : Bytes.toNatLE (Bytes.slice data (offset + 4) 4) = itemSize) :
    decodeItems data size offset =
      (decodeItems data size (offset + ItemHeader.length + itemSize)).map
        (Bytes.slice data (offset + ItemHeader.length) itemSize :: ·) := by
  rw [decodeItems, if_pos hmore, if_neg (by omega), if_neg (not_not_intro hmagic), hsize]
  simp only
  rw [if_neg (Nat.not_lt.mpr whole)]
  cases decodeItems data size (offset + ItemHeader.length + itemSize) <;> rfl

private theorem decodeItems_item (before value rest : Bytes) (size : Nat)
    (hvalue : value.length < 2 ^ 32) (hmore : before.length < size) :
    decodeItems (before ++ (ItemHeader.bytes value.length ++ (value ++ rest))) size
        before.length =
      (decodeItems (before ++ (ItemHeader.bytes value.length ++ (value ++ rest))) size
        (before.length + ItemHeader.length + value.length)).map (value :: ·) := by
  have hheader : (ItemHeader.bytes value.length).length = ItemHeader.length :=
    ItemHeader.length_bytes _
  generalize hitem : ItemHeader.bytes value.length ++ (value ++ rest) = item
  have hmagic : Bytes.toNatLE (Bytes.slice (before ++ item) before.length 4) =
      ItemHeader.kMagic := by
    have hslice := Bytes.slice_append_right before item 0 4
    rw [Nat.add_zero, ← hitem, ItemHeader.slice_magic, hitem] at hslice
    rw [hslice, Bytes.toNatLE_ofNatLE]
    rfl
  have hsize : Bytes.toNatLE (Bytes.slice (before ++ item) (before.length + 4) 4) =
      value.length := by
    rw [Bytes.slice_append_right, ← hitem, ItemHeader.slice_size, Bytes.toNatLE_ofNatLE_four,
      Nat.mod_eq_of_lt hvalue]
  have hpayload : Bytes.slice (before ++ item) (before.length + ItemHeader.length)
      value.length = value := by
    rw [Bytes.slice_append_right, ← hitem, Bytes.slice, List.drop_left' hheader, List.take_left]
  have hlength : before.length + ItemHeader.length + value.length ≤ (before ++ item).length := by
    simp only [← hitem, List.length_append, hheader]
    omega
  rw [decodeItems_turn hmore hlength hmagic hsize, hpayload]

theorem decodeItems_frames (before : Bytes) (values : List Bytes) (rest : Bytes)
    (hvalues : ∀ v ∈ values, v.length < 2 ^ 32) :
    decodeItems (before ++ (ItemHeader.framing.frames values ++ rest))
      (before.length + (ItemHeader.framing.frames values).length) before.length = .ok values := by
  induction values generalizing before with
  | nil => rw [decodeItems, if_neg (by simp)]
  | cons value values ih =>
    have hnext := ih (before ++ (ItemHeader.bytes value.length ++ value))
      fun v hv => hvalues v (List.mem_cons_of_mem _ hv)
    have hlen : (ItemHeader.framing.frames (value :: values)).length =
        ItemHeader.length + value.length + (ItemHeader.framing.frames values).length :=
      ItemHeader.framing.length_frames_cons value values
    have hmore : before.length <
        before.length + (ItemHeader.framing.frames (value :: values)).length := by
      have hpos : 0 < ItemHeader.length := by decide
      omega
    have hbefore : (before ++ (ItemHeader.bytes value.length ++ value)).length =
        before.length + ItemHeader.length + value.length := by
      rw [List.length_append, List.length_append, ItemHeader.length_bytes, Nat.add_assoc]
    have hend : before.length + ItemHeader.length + value.length +
        (ItemHeader.framing.frames values).length =
        before.length + (ItemHeader.framing.frames (value :: values)).length := by
      omega
    have hcons : ItemHeader.framing.frames (value :: values) ++ rest =
        ItemHeader.bytes value.length ++
          (value ++ (ItemHeader.framing.frames values ++ rest)) := by
      rw [Framing.frames_cons, List.append_assoc, List.append_assoc]
      rfl
    -- the loop goes on behind the item, with the item counted as read
    rw [hbefore, hend, List.append_assoc, List.append_assoc] at hnext
    rw [hcons, decodeItems_item before value _ _ (hvalues value List.mem_cons_self) hmore, hnext]
    rfl

end FlashLog.Decode
