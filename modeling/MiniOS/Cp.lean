import MiniOS.Fs.Writei
import MiniOS.Fs.Held

/-!
# MiniOS.Cp

The program `cp`.  It opens the destination with `O_CREATE | O_WRONLY`, so that
what was in the file stays there, and writes the source over its beginning: after
a successful run the destination is the source with the rest of the old contents
behind it.
-/

namespace MiniOS

open Checked
open Function (update update_self update_of_ne)

section
variable [Superblock]

namespace Fs
variable {s s' : Fs} {i j : Fin ninode}

section
omit [Superblock]

end

/-! ## Contents -/

/-- A call on inode `j` leaves the contents of the others. -/
theorem Frame.contents_eq (hf : Frame j s s') (h : Wf s) (hi : s.Locked i) (hj : s.Locked j) (hne : i ≠ j) :
    s'.contents i = s.contents i := by
  have hinum : (s.itable i).inum ≠ (s.itable j).inum := fun h' => hne (h.distinct i j hi.ref hj.ref h')
  have hentry : s'.itable i = s.itable i := by rw [hf.itable, update_of_ne hne]
  obtain ⟨hd, htype⟩ := h.cached i hi
  rw [contents, contents, hentry, Dinode.bytes, Dinode.bytes, hd]
  refine List.map_congr_left fun k _ => ?_
  rw [← hf.byte _ _ hinum (hd ▸ htype), hf.others _ hinum]

end Fs

section
variable {s : FileSys} {f g : Fin nfile} {i j : Fin ninode}

end

end

/-! ## An empty file copied over a block -/

end MiniOS
