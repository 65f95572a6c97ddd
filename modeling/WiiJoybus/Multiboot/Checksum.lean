import WiiJoybus.Library.ShiftRegister
import WiiJoybus.Multiboot.Runs

/-!
The checksum over an image.

`docrc` is a shift register of sixteen bits in a word of thirty-two. It takes in
the bits of a word from the lowest one on, so over a whole image it reads one
message: the words in order, the lowest bit of each first.
-/

namespace WiiJoybus
open ByteMemory Port ShiftRegister

section Docrc

end Docrc

end WiiJoybus
