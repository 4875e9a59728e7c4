import WidgetMigration.Main
import WidgetMigration.Proofs.Command.Envelope
import WidgetMigration.Proofs.Command.Exit
import WidgetMigration.Proofs.Migration.Accounting
import WidgetMigration.Proofs.Migration.DryRun
import WidgetMigration.Proofs.Migration.Isolation
import WidgetMigration.Proofs.Migration.Names
import WidgetMigration.Proofs.Rule.Commuting
import WidgetMigration.Proofs.Rule.Cuts
import WidgetMigration.Proofs.Rule.Handler
import WidgetMigration.Proofs.Rule.Leftovers
import WidgetMigration.Proofs.Rule.Rerun
import WidgetMigration.Proofs.Rule.Styles
import WidgetMigration.Proofs.Rule.TextFields
