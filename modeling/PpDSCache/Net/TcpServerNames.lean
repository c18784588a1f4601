import PpDSCache.Net.TcpServer

/-!
# Names of connections

A name fits the buffer it is printed into, so that the number at its end is
never cut and different connections have different names.
-/

namespace PpDSCache.Net

open Cpp Master Master.InetAddress

section IpPort

variable {inetNtop6 : (Fin 16 → UInt8) → Text}

end IpPort

theorem nameBuf_injective {ipPort : Text} {m n : ℕ} (hip : ipPort.length ≤ 51) (hm : m < 2 ^ 31)
    (hn : n < 2 ^ 31) (h : nameBuf ipPort m = nameBuf ipPort n) : m = n := by
  have hwhole : ∀ k : ℕ, k < 2 ^ 31 →
      nameBuf ipPort k = ascii "-" ++ ipPort ++ ascii "#" ++ decimalText k := by
    intro k hk
    have hdigits : (decimalText k).length ≤ 10 := length_decimalText_le (by norm_num) (by omega)
    have hdash : (ascii "-").length = 1 := rfl
    have hhash : (ascii "#").length = 1 := rfl
    apply List.take_of_length_le
    simp only [List.length_append, hdash, hhash]
    omega
  rw [hwhole m hm, hwhole n hn] at h
  exact decimalText_injective (List.append_cancel_left h)

end PpDSCache.Net
