import PkgsrcPatches.HeaderLength
import PkgsrcPatches.NAcd.Batch
import PkgsrcPatches.NAcd.ReadSize
import PkgsrcPatches.NDhcp4.PacketSend
import PkgsrcPatches.NDhcp4.SocketUdp
import PkgsrcPatches.NDhcp4.Backlog
import PkgsrcPatches.Emacs.Etags
import PkgsrcPatches.Emacs.CopyFile
import PkgsrcPatches.NAcd.Timer
import PkgsrcPatches.Emacs.Modules
import PkgsrcPatches.Emacs.Bulk
import PkgsrcPatches.Emacs.NameRoundTrip
import PkgsrcPatches.NAcd.Split
import PkgsrcPatches.Mule.SafeDir
import PkgsrcPatches.Mule.SocketDir
import PkgsrcPatches.Lib.Kleene
import PkgsrcPatches.Elisp.Bracket
import PkgsrcPatches.Elisp.Regexp
import PkgsrcPatches.Elisp.Reader
import PkgsrcPatches.Elisp.ClassBracket
import PkgsrcPatches.Elisp.ClassSet
import PkgsrcPatches.Elisp.Translate
import PkgsrcPatches.Elisp.Unroll
import PkgsrcPatches.Elisp.Tokens
import PkgsrcPatches.Elisp.Tracking
import PkgsrcPatches.Elisp.Preserve
import PkgsrcPatches.Elisp.MatchData
import PkgsrcPatches.Elisp.Groups
import PkgsrcPatches.Elisp.Numbering
import PkgsrcPatches.Bpf.Safety
import PkgsrcPatches.NAcd.ReadArp
import PkgsrcPatches.NDhcp4.ParseSafety
import PkgsrcPatches.NDhcp4.FirstUsable
import PkgsrcPatches.NDhcp4.Narrow
import PkgsrcPatches.NDhcp4.Truncation
import PkgsrcPatches.Mule.SocketPath
import PkgsrcPatches.Mule.TempFile
import PkgsrcPatches.Lib.Shell
import PkgsrcPatches.Emacs.Quoting
import PkgsrcPatches.Emacs.Decision
import PkgsrcPatches.Elisp.Spelling
import PkgsrcPatches.Elisp.ClassText
import PkgsrcPatches.Elisp.SameSet
import PkgsrcPatches.Elisp.Recast
import PkgsrcPatches.Elisp.Misread
import PkgsrcPatches.Elisp.OldRegexp
import PkgsrcPatches.Elisp.Untouched
import PkgsrcPatches.Speakersafetyd.Sense
import PkgsrcPatches.Mule.B2m
import PkgsrcPatches.Elisp.FiniteMap
import PkgsrcPatches.Descriptors.Process
import PkgsrcPatches.NDhcp4.ClientUdp
import PkgsrcPatches.NAcd.Segment
import PkgsrcPatches.Emacs.Coexist
import PkgsrcPatches.Elisp.ListEdit
import PkgsrcPatches.Elisp.SyntaxRules
import PkgsrcPatches.Elisp.Propertize
import PkgsrcPatches.NDhcp4.EventHistory
import PkgsrcPatches.Emacs.EscapeArg
import PkgsrcPatches.Emacs.TagUpdate
import PkgsrcPatches.Tamago.Conversions
import PkgsrcPatches.Flim.LexicalAnalyze
