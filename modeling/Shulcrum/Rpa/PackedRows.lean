import Shulcrum.PackedNumView
import Shulcrum.Rpa.ReadOnly

/-!
# Rows as packed numbers

The rows of a prefix table are packed numbers of 24 bits in little-endian
order.  Writing a row is `Make`, and the indices of a row that was read are the
elements of a view of its bytes.

**Results.**
* `make_row`: `Make` writes the bytes of a row.
* `elements_row`: a walk over the view of a row sees its indices.
-/

namespace Shulcrum
namespace Rpa

open BTC

/-- `PNV`: the width of the indices of a row. -/
def rowWidth : Width := ⟨serializedTxIdxBits, by decide, by decide, by decide⟩

variable {host : ByteOrder}

/-- A row is what `Make` writes for its indices. -/
theorem make_row (vec : List TxIdx) {outBuffer : List UInt8}
    (hbuf : outBuffer.length = rowWidth.bytesPerElement * vec.length) :
    PackedNumView.make host outBuffer (vec.map UInt32.toNat) false =
      (.ok ⟨PrefixTable.serializeRow vec⟩ : Except String (PackedNumView rowWidth .little)) := by
  have hlen : outBuffer.length = rowWidth.bytesPerElement * (vec.map UInt32.toNat).length := by
    rw [List.length_map, hbuf]
  have hrow : PackedNumView.pack rowWidth .little (vec.map UInt32.toNat) =
      PrefixTable.serializeRow vec := by
    rw [PackedNumView.pack, List.flatMap_map]
    rfl
  rw [PackedNumView.make_eq host hlen (Or.inr (Nat.le_refl _)), PackedNumView.fitted_self, hrow]

/-- The indices of a row are the elements of the view of its bytes. -/
theorem elements_row (buf : List UInt8) :
    PackedNumView.elements host (⟨buf⟩ : PackedNumView rowWidth .little) =
      some ((ReadOnly.elements buf).map UInt32.toNat) := by
  rw [PackedNumView.elements_eq, ReadOnly.elements, List.map_map]
  congr 1
  refine List.map_congr_left fun i hi => ?_
  have hi' : i < buf.length / 3 := List.mem_range.mp hi
  have hlen : ((buf.drop (3 * i)).take 3).length = 3 := by
    rw [List.length_take, List.length_drop]
    omega
  have hlt : ofLE ((buf.drop (3 * i)).take 3) < 2 ^ 24 := by
    have hbound := ofLE_lt ((buf.drop (3 * i)).take 3)
    rw [hlen] at hbound
    exact hbound
  have hview : PackedNumView.viewForElement (⟨buf⟩ : PackedNumView rowWidth .little) i =
      leBytes 3 (ofLE ((buf.drop (3 * i)).take 3)) := by
    rw [ByteOrder.leBytes_ofLE_of_length hlen, PackedNumView.viewForElement,
      PackedNumView.substr_eq]
    rfl
  have hget : PackedNumView.get host (⟨buf⟩ : PackedNumView rowWidth .little) i =
      ofLE ((buf.drop (3 * i)).take 3) % 2 ^ 24 := PackedNumView.get_of_bytes hview
  rw [hget, Function.comp, UInt32.toNat_ofNat', Nat.mod_eq_of_lt hlt,
    Nat.mod_eq_of_lt (by omega)]

end Rpa
end Shulcrum
