import PiLSMer.Cli.Accounts
import PiLSMer.Cli.Commands
import PiLSMer.Core.Corruption
import PiLSMer.Core.Retention
import PiLSMer.Core.Varint
import PiLSMer.Slate.Accounting
import PiLSMer.Slate.CachedReads
import PiLSMer.Slate.Converted
import PiLSMer.Slate.KeyLocks
import PiLSMer.Slate.Migrate
import PiLSMer.Slate.Progress
import PiLSMer.Slate.Truthful
import PiLSMer.Slate.Unfailing
