import Wjfs.Host.Laws

/-!
# Wjfs.Namespace

What a host's users see: which paths there are and which of them are
directories.  A dentry is seen if it and everything above it is hashed and
positive.
-/

namespace Wjfs

namespace Host

/-- The dentry at a path. -/
inductive AtPath (h : Host) : List Bytes → Ptr → Prop
  | root : h.root ∈ h.dcache.ptrs → AtPath h [] h.root
  | child {path : List Bytes} {p : Ptr} {d : Dentry} : AtPath h path p →
      (some p, d) ∈ h.dcache.nodes → d.positive = true → AtPath h (path ++ [d.dName]) d.ptr

/-- The visible namespace: the path is there, and is a directory or not. -/
def Names (h : Host) (path : List Bytes) (isDir : Bool) : Prop :=
  ∃ k i, h.AtPath path k ∧ h.dInode? k = some i ∧ (h.inodes i).isDir = isDir

end Host

end Wjfs
