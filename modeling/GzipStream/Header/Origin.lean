/-!
# Systems named in gzip headers
-/

namespace GzipStream.Header

/-- The system that a header's last fixed byte stands for. -/
def originName (os : UInt8) : String :=
  match os.toNat with
  | 0 => "FAT"
  | 1 => "Amiga"
  | 2 => "VMS"
  | 3 => "Unix"
  | 4 => "VM/CMS"
  | 5 => "Atari TOS"
  | 6 => "HPFS"
  | 7 => "Macintosh"
  | 8 => "Z-System"
  | 9 => "CP/M"
  | 10 => "TOPS-20"
  | 11 => "NTFS"
  | 12 => "QDOS"
  | 13 => "Acorn RISCOS"
  | _ => "unknown"

end GzipStream.Header
